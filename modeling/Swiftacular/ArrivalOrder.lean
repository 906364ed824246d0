import Swiftacular.RequestSets

/-!
The order in which requests are decided does not show. Each decision keeps
the name reflecting the requests decided so far, and what reflects the same
requests shows the same.
-/
namespace Swiftacular.ArrivalOrder

open Timestamps MetadataModel NameDecisions RequestSets

variable {isSysMeta : String → Bool} {name : EngineObjects.Name}

/-- A PUT or DELETE not newer than the holder changes nothing. -/
theorem reflects_dropped {requests : List Request} {h : Held} (hr : Reflects requests h)
    {r : Request} {w : Bool × Section} (hw : writes [r] = [w]) (hp : posts [r] = [])
    (hold : w.2.timestamp.tick ≤ h.ts) : Reflects (requests ++ [r]) h := by
  have hposts : posts (requests ++ [r]) = posts requests := by rw [posts_append, hp, List.append_nil]
  refine ⟨?_, ?_, hr.ts, hr.pos, ?_, hr.later, ?_⟩
  · rw [writes_append]
    exact List.mem_append_left _ hr.holder
  · intro v hv
    rw [writes_append, hw, List.mem_append, List.mem_singleton] at hv
    rcases hv with hv | rfl
    · exact hr.newest v hv
    · exact hold
  · rw [hposts]
    exact hr.unposted
  · rw [hposts]
    exact hr.posted

/-- A newer PUT or DELETE takes over and keeps the POST that is newer still. -/
theorem reflects_taken {requests : List Request} {h : Held} (hr : Reflects requests h)
    {r : Request} {deleted : Bool} {data : Section} (hw : writes [r] = [(deleted, data)])
    (hp : posts [r] = []) (hnew : h.ts < data.timestamp.tick) :
    Reflects (requests ++ [r])
      ⟨data.timestamp.tick, deleted, put (some (MetadataModel.get isSysMeta h.blob)) data⟩ := by
  have hposts : posts (requests ++ [r]) = posts requests := by rw [posts_append, hp, List.append_nil]
  have hdata : h.blob.dataSection.timestamp < data.timestamp :=
    Timestamp.lt_of_tick (hr.ts ▸ hnew)
  refine ⟨?_, ?_, ?_, Nat.zero_lt_of_lt hnew, ?_, ?_, ?_⟩
  · rw [writes_append, hw, put_dataSection]
    exact List.mem_append_right _ (List.mem_singleton_self _)
  · intro v hv
    rw [writes_append, hw, List.mem_append, List.mem_singleton] at hv
    rcases hv with hv | rfl
    · exact (hr.newest v hv).trans hnew.le
    · exact Nat.le_refl _
  · rw [put_dataSection]
  · intro hnone p hpmem
    rw [hposts] at hpmem
    rw [put_dataSection]
    cases hm : h.blob.metaSection with
    | none => exact (hr.unposted hm p hpmem).trans hdata.le
    | some m =>
      refine ((hr.posted m hm).newest p hpmem).trans (not_lt.mp fun hlt => ?_)
      have hkept := (put_metaSection (some (MetadataModel.get isSysMeta h.blob)) data m).mpr
        ⟨hm, hlt⟩
      rw [hnone] at hkept
      contradiction
  · intro m hm
    rw [put_dataSection]
    exact ((put_metaSection _ _ _).mp hm).2
  · intro m hm
    have hold := hr.posted m ((put_metaSection _ _ _).mp hm).1
    rw [hposts, put_dataSection]
    exact ⟨hold.base, hold.newest, hold.type_from,
      fun p hpmem hle => hold.type_newest p hpmem (hdata.le.trans hle)⟩

/-- A POST not newer than the data is no part of what shows. -/
theorem reflects_old_post {requests : List Request} {h : Held} (hr : Reflects requests h)
    {p : Section} (hagree : PostsAgree (posts (requests ++ [.post p])))
    (hlt : p.timestamp < h.blob.dataSection.timestamp) :
    Reflects (requests ++ [.post p]) h := by
  have hposts : posts (requests ++ [.post p]) = posts requests ++ [p] := posts_append ..
  have hwrites : writes (requests ++ [.post p]) = writes requests := by
    rw [writes_append]
    exact List.append_nil _
  have hctype : ctypeTimestamp p ≤ p.timestamp := ctype_le hagree (by rw [hposts]; simp)
  refine ⟨hwrites ▸ hr.holder, hwrites ▸ hr.newest, hr.ts, hr.pos, ?_, hr.later, ?_⟩
  · intro hnone q hq
    rw [hposts, List.mem_append, List.mem_singleton] at hq
    rcases hq with hq | rfl
    · exact hr.unposted hnone q hq
    · exact hlt.le
  · intro m hm
    have hold := hr.posted m hm
    obtain ⟨q, hq, hqm⟩ := hold.base
    rw [hposts]
    refine ⟨⟨q, List.mem_append_left _ hq, hqm⟩, ?_, ?_, ?_⟩
    · intro q hq
      rw [List.mem_append, List.mem_singleton] at hq
      rcases hq with hq | rfl
      · exact hold.newest q hq
      · exact (hlt.trans (hr.later m hm)).le
    · rcases hold.type_from with hnone | ⟨q, hq, hqm⟩
      · exact Or.inl hnone
      · exact Or.inr ⟨q, List.mem_append_left _ hq, hqm⟩
    · intro q hq hle
      rw [List.mem_append, List.mem_singleton] at hq
      rcases hq with hq | rfl
      · exact hold.type_newest q hq hle
      · exact absurd (hle.trans hctype) (not_le.mpr hlt)

/-- The first POST newer than the data. -/
theorem postedBy_first {sections : List Section} {data p : Section}
    (hagree : PostsAgree (sections ++ [p])) (hold : ∀ q ∈ sections, q.timestamp < data.timestamp)
    (hnew : data.timestamp < p.timestamp) : PostedBy (sections ++ [p]) data p := by
  have hmem : p ∈ sections ++ [p] := by simp
  refine ⟨⟨p, hmem, rfl, rfl⟩, ?_, Or.inr ⟨p, hmem, rfl, rfl⟩, ?_⟩
  · intro q hq
    rw [List.mem_append, List.mem_singleton] at hq
    rcases hq with hq | rfl
    · exact ((hold q hq).trans hnew).le
    · exact le_refl _
  · intro q hq hle
    have hctype := ctype_le hagree hq
    rw [List.mem_append, List.mem_singleton] at hq
    rcases hq with hq | rfl
    · exact absurd (hle.trans hctype) (not_le.mpr (hold q hq))
    · exact le_refl _

/-- The two sections a POST is settled between: both newer than the data,
and between them they have the newest fields and the newest type. -/
theorem postedBy_overlay {sections : List Section} {data p stored : Section}
    (hagree : PostsAgree (sections ++ [p])) (hstored : PostedBy sections data stored)
    {newer : Section} {older : Option Section}
    (hsplit : newerOlder (some stored) p = (newer, older)) :
    ∃ m, overlay newer older = .ok m ∧ m.timestamp = newer.timestamp ∧
      PostedBy (sections ++ [p]) data m := by
  have hp : p ∈ sections ++ [p] := by simp
  have hwiden : ∀ q ∈ sections, q ∈ sections ++ [p] := fun q hq => List.mem_append_left _ hq
  -- where a section's type comes from, for the stored one and the POST alike
  have hfrom : ∀ s, s = stored ∨ s = p →
      (s.contentType = none ∧ s.contentTypeTimestamp = none) ∨
        ∃ q ∈ sections ++ [p], q.contentTypeTimestamp = s.contentTypeTimestamp ∧
          q.contentType = s.contentType := by
    rintro s (rfl | rfl)
    · rcases hstored.type_from with hnone | ⟨q, hq, hqs⟩
      · exact Or.inl hnone
      · exact Or.inr ⟨q, hwiden q hq, hqs⟩
    · exact Or.inr ⟨s, hp, rfl, rfl⟩
  have hbase : ∀ s, s = stored ∨ s = p →
      ∃ q ∈ sections ++ [p], q.timestamp = s.timestamp ∧ q.rest = s.rest := by
    rintro s (rfl | rfl)
    · obtain ⟨q, hq, hqs⟩ := hstored.base
      exact ⟨q, hwiden q hq, hqs⟩
    · exact ⟨s, hp, rfl, rfl⟩
  have hnewest : ∀ s : Section, stored.timestamp ≤ s.timestamp → p.timestamp ≤ s.timestamp →
      ∀ q ∈ sections ++ [p], q.timestamp ≤ s.timestamp := by
    intro s h1 h2 q hq
    rw [List.mem_append, List.mem_singleton] at hq
    rcases hq with hq | rfl
    · exact (hstored.newest q hq).trans h1
    · exact h2
  have htypes : ∀ t, ctypeTimestamp stored ≤ t → ctypeTimestamp p ≤ t →
      ∀ q ∈ sections ++ [p], data.timestamp ≤ ctypeTimestamp q → ctypeTimestamp q ≤ t := by
    intro t h1 h2 q hq hle
    rw [List.mem_append, List.mem_singleton] at hq
    rcases hq with hq | rfl
    · exact (hstored.type_newest q hq hle).trans h1
    · exact h2
  obtain ⟨o, rfl, hpair, hts⟩ : ∃ o, older = some o ∧
      ((newer = p ∧ o = stored) ∨ (newer = stored ∧ o = p)) ∧
      (stored.timestamp ≤ newer.timestamp ∧ p.timestamp ≤ newer.timestamp) := by
    simp only [newerOlder] at hsplit
    split at hsplit
    · rename_i hlt
      obtain ⟨rfl, rfl⟩ := Prod.mk.inj hsplit
      exact ⟨stored, rfl, Or.inl ⟨rfl, rfl⟩, hlt.le, le_refl _⟩
    · rename_i hlt
      obtain ⟨rfl, rfl⟩ := Prod.mk.inj hsplit
      exact ⟨p, rfl, Or.inr ⟨rfl, rfl⟩, le_refl _, not_lt.mp hlt⟩
  have hnewer : newer = stored ∨ newer = p := by
    rcases hpair with ⟨h, -⟩ | ⟨h, -⟩
    · exact Or.inr h
    · exact Or.inl h
  have hbound : ∀ t, ctypeTimestamp newer ≤ t → ctypeTimestamp o ≤ t →
      ctypeTimestamp stored ≤ t ∧ ctypeTimestamp p ≤ t := by
    intro t h1 h2
    rcases hpair with ⟨rfl, rfl⟩ | ⟨rfl, rfl⟩
    · exact ⟨h2, h1⟩
    · exact ⟨h1, h2⟩
  by_cases htype : ctypeTimestamp o > ctypeTimestamp newer
  · have hsome := ctype_some htype
    have ho : o = stored ∨ o = p := by
      rcases hpair with ⟨-, h⟩ | ⟨-, h⟩
      · exact Or.inl h
      · exact Or.inr h
    obtain ⟨q, hq, hqts, hqct⟩ : ∃ q ∈ sections ++ [p],
        q.contentTypeTimestamp = o.contentTypeTimestamp ∧ q.contentType = o.contentType := by
      rcases hfrom o ho with ⟨-, hnone⟩ | h
      · simp [hnone] at hsome
      · exact h
    have hct : o.contentType.isSome := by
      rw [← hqct]
      exact (hagree.typed q hq).mpr (by rw [hqts, hsome]; rfl)
    obtain ⟨ct, hct⟩ := Option.isSome_iff_exists.mp hct
    let m : Section := { newer with
      contentType := some ct, contentTypeTimestamp := o.contentTypeTimestamp }
    have hm : ctypeTimestamp m = ctypeTimestamp o := rfl
    obtain ⟨h1, h2⟩ := hbound (ctypeTimestamp o) htype.le (le_refl _)
    refine ⟨m, by simp only [overlay, htype, if_true, hct, m], rfl, hbase newer hnewer,
      hnewest m hts.1 hts.2, Or.inr ⟨q, hq, hqts, hqct.trans hct⟩, ?_⟩
    rw [hm]
    exact htypes _ h1 h2
  · obtain ⟨h1, h2⟩ := hbound (ctypeTimestamp newer) (le_refl _) (not_lt.mp htype)
    exact ⟨newer, by simp only [overlay, htype, if_false], rfl, hbase newer hnewer,
      hnewest newer hts.1 hts.2, hfrom newer hnewer, htypes _ h1 h2⟩

/-- Deciding a POST leaves the merged section, whether or not it is written. -/
theorem decideRequest_post {h : Held} {p m : Section} {newer : Section} {older : Option Section}
    (hnew : h.blob.dataSection.timestamp < p.timestamp)
    (hsplit : newerOlder h.blob.metaSection p = (newer, older))
    (hm : overlay newer older = .ok m) :
    decideRequest isSysMeta name (some h) (.post p) =
      some { h with blob := ⟨h.blob.dataSection, some m⟩ } := by
  have hpost : post (some (MetadataModel.get isSysMeta h.blob)) p =
      if h.blob.metaSection = some m then .ok none
      else .ok (some ⟨h.blob.dataSection, some m⟩) := by
    simp only [post, get_dataTs, get_metaSection, get_dataSection, not_le.mpr hnew, if_false,
      hsplit, hm]
    rfl
  simp only [decideRequest, deviceWriteMetadata, hpost]
  by_cases hsame : h.blob.metaSection = some m
  · rw [if_pos hsame, ← hsame]
  · rw [if_neg hsame]

/-- One decision keeps the name reflecting what was decided. -/
theorem decideRequest_reflects {requests : List Request} {h : Held} (hr : Reflects requests h)
    (r : Request) (hagree : PostsAgree (posts (requests ++ [r])))
    (hapart : ∀ p ∈ posts (requests ++ [r]), p.timestamp.tick ≠ h.ts) :
    ∃ h', decideRequest isSysMeta name (some h) r = some h' ∧ Reflects (requests ++ [r]) h' := by
  cases r with
  | put m =>
    rw [decideRequest_put]
    by_cases hold : m.timestamp.tick ≤ h.ts
    · exact ⟨h, if_pos hold, reflects_dropped hr rfl rfl hold⟩
    · exact ⟨_, if_neg hold, reflects_taken hr rfl rfl (Nat.lt_of_not_le hold)⟩
  | delete m =>
    rw [decideRequest_delete]
    by_cases hold : m.timestamp.tick ≤ h.ts
    · exact ⟨h, if_pos hold, reflects_dropped hr rfl rfl hold⟩
    · exact ⟨_, if_neg hold, reflects_taken hr rfl rfl (Nat.lt_of_not_le hold)⟩
  | post p =>
    have hposts : posts (requests ++ [.post p]) = posts requests ++ [p] := posts_append ..
    have hwrites : writes (requests ++ [.post p]) = writes requests := by
      rw [writes_append]
      exact List.append_nil _
    have hne : p.timestamp.tick ≠ h.blob.dataSection.timestamp.tick :=
      hr.ts ▸ hapart p (by rw [hposts]; simp)
    by_cases hold : p.timestamp ≤ h.blob.dataSection.timestamp
    · have hlt : p.timestamp < h.blob.dataSection.timestamp :=
        Timestamp.lt_of_tick (Nat.lt_of_le_of_ne (Timestamp.tick_le hold) hne)
      refine ⟨h, ?_, reflects_old_post hr hagree hlt⟩
      simp only [decideRequest, deviceWriteMetadata, post, get_dataTs, hold, if_true]
    have hnew := not_le.mp hold
    -- from here on the blob gets the merged section
    have hfinish : ∀ m : Section, m.timestamp ≥ p.timestamp →
        PostedBy (posts requests ++ [p]) h.blob.dataSection m →
        Reflects (requests ++ [.post p]) { h with blob := ⟨h.blob.dataSection, some m⟩ } := by
      intro m hmts hm
      refine ⟨hwrites ▸ hr.holder, hwrites ▸ hr.newest, hr.ts, hr.pos, ?_, ?_, ?_⟩
      · intro hnone
        contradiction
      · intro m' hm'
        obtain rfl := Option.some.inj hm'
        exact hnew.trans_le hmts
      · intro m' hm'
        obtain rfl := Option.some.inj hm'
        rw [hposts]
        exact hm
    cases hstored : h.blob.metaSection with
    | none =>
      have hfirst : PostedBy (posts requests ++ [p]) h.blob.dataSection p := by
        refine postedBy_first (hposts ▸ hagree) (fun q hq => ?_) hnew
        have hqne : q.timestamp.tick ≠ h.blob.dataSection.timestamp.tick :=
          hr.ts ▸ hapart q (by rw [hposts]; exact List.mem_append_left _ hq)
        exact Timestamp.lt_of_tick
          (Nat.lt_of_le_of_ne (Timestamp.tick_le (hr.unposted hstored q hq)) hqne)
      exact ⟨_, decideRequest_post hnew (by rw [hstored, newerOlder]) rfl, hfinish p (le_refl _) hfirst⟩
    | some stored =>
      obtain ⟨newer, older, hsplit⟩ : ∃ newer older, newerOlder (some stored) p = (newer, older) :=
        ⟨_, _, rfl⟩
      obtain ⟨m, hm, -, hposted⟩ :=
        postedBy_overlay (hposts ▸ hagree) (hr.posted stored hstored) hsplit
      exact ⟨_, decideRequest_post hnew (by rw [hstored, hsplit]) hm,
        hfinish m (hposted.newest p (by simp)) hposted⟩

/-- A run of decisions keeps the name reflecting what was decided. -/
theorem run_reflects {decided : List Request} {h : Held} (hr : Reflects decided h)
    (requests : List Request) (hwf : WellFormed (decided ++ requests)) :
    ∃ h', run isSysMeta name (some h) requests = some h' ∧
      Reflects (decided ++ requests) h' := by
  induction requests generalizing decided h with
  | nil => exact ⟨h, rfl, by rwa [List.append_nil]⟩
  | cons r rest ih =>
    have hsplit : decided ++ r :: rest = (decided ++ [r]) ++ rest := by simp
    have hwf1 := wellFormed_left (hsplit ▸ hwf)
    have hagree : PostsAgree (posts (decided ++ [r])) := hwf1.agree
    have hapart : ∀ p ∈ posts (decided ++ [r]), p.timestamp.tick ≠ h.ts := by
      intro p hp
      rw [hr.ts]
      refine hwf1.apart p hp _ (?_ : (h.deleted, h.blob.dataSection) ∈ _)
      rw [writes_append]
      exact List.mem_append_left _ hr.holder
    obtain ⟨h1, hstep, hr1⟩ := decideRequest_reflects hr r hagree hapart
    rw [run_cons, hstep, hsplit]
    exact ih hr1 (hsplit ▸ hwf)

/-- A name just handed to a PUT that nothing held it before. -/
theorem reflects_first {first : Section} {h : Held}
    (hheld : decideRequest isSysMeta name none (.put first) = some h) : Reflects [.put first] h := by
  rw [decideRequest_put] at hheld
  split at hheld
  · contradiction
  rename_i htick
  obtain rfl := Option.some.inj hheld
  refine ⟨by simp [writes], by simp [writes], rfl, Nat.lt_of_not_le htick, ?_, ?_, ?_⟩
  · intro _ p hp
    simp [posts] at hp
  · intro m hm
    contradiction
  · intro m hm
    contradiction

/-- From a name held by a PUT, every order of the same requests shows the same. -/
theorem arrival_order {first : Section} {held : Held}
    (hheld : decideRequest isSysMeta name none (.put first) = some held)
    {requests requests' : List Request} (hwf : WellFormed (.put first :: requests))
    (hperm : requests.Perm requests') :
    (run isSysMeta name (some held) requests).map (shown isSysMeta) =
      (run isSysMeta name (some held) requests').map (shown isSysMeta) := by
  have hr := reflects_first hheld
  have hperm' : (Request.put first :: requests).Perm (.put first :: requests') := hperm.cons _
  obtain ⟨h, hrun, hh⟩ := run_reflects hr requests hwf
  obtain ⟨h', hrun', hh'⟩ := run_reflects hr requests' (wellFormed_perm hwf hperm')
  have hback : Reflects ([.put first] ++ requests) h' := reflects_perm hh' hperm'.symm
  rw [hrun, hrun', Option.map_some, Option.map_some, shown_unique hwf hh hback]

/-- A POST between a DELETE older and a PUT older than itself, in two of the orders. -/
theorem arrival_order_race :
    let put := fun tick => Section.mk ⟨tick, 0⟩ (some "text/plain") none ∅
    let posted := Section.mk ⟨4, 0⟩ (some "text/html") (some ⟨4, 0⟩) ∅
    (run (fun _ => false) "a/c/o" (some ⟨1, false, ⟨put 1, none⟩⟩)
        [.post posted, .delete (.stamped ⟨2, 0⟩), .put (put 3)]).map (shown fun _ => false) =
      (run (fun _ => false) "a/c/o" (some ⟨1, false, ⟨put 1, none⟩⟩)
        [.put (put 3), .post posted, .delete (.stamped ⟨2, 0⟩)]).map (shown fun _ => false) := by
  refine @arrival_order _ _ ⟨⟨1, 0⟩, some "text/plain", none, ∅⟩ _ rfl _ _ ?_ (by decide)
  refine ⟨?_, ?_, ?_, ?_⟩
  · simp
  · simp [writes, Section.stamped]
  · simp [writes, posts, Section.stamped]
  · refine ⟨?_, ?_, ?_, ?_⟩ <;> simp [posts]

end Swiftacular.ArrivalOrder
