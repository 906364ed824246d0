import Swiftacular.MetadataModel
import Mathlib.Data.List.Sort

/-!
Swift's own files of one name: how a writer adds a `.data`, `.meta` or `.ts`
file, which files a listing of the directory chooses and which it makes
obsolete, and what metadata an open builds from the chosen ones. The order
of `os.listdir`, the text of a file name and what a `.meta` name's second
timestamp decodes to are parameters. Nothing here reclaims by age.
-/
namespace Swiftacular.OndiskFiles

open Timestamps MetadataModel

inductive Ext
  | data | posted | ts
  deriving DecidableEq

/-- What a file's name carries: for a POST with a content type also the raw
value of that type's timestamp, as a difference to the file's own. -/
structure FileName where
  timestamp : Timestamp
  ext : Ext
  ctypeRaw : Option ℕ
  deriving DecidableEq

def makeOnDiskFilename (timestamp : Timestamp) (ext : Ext) (ctype : Option Timestamp) : FileName :=
  { timestamp, ext
    ctypeRaw :=
      if ext = .posted then (ctype.filter fun t => t ≠ Timestamp.zero).map Timestamp.raw
      else none }

structure File where
  filename : FileName
  metadata : Section
  deriving DecidableEq

def File.timestamp (f : File) : Timestamp := f.filename.timestamp

/-- `exts` and the list under `results['obsolete']`. -/
structure Exts where
  dataFiles : List File
  metaFiles : List File
  tsFiles : List File
  obsolete : List File

/-- Every file, chosen or not. -/
def Exts.all (e : Exts) : List File := e.dataFiles ++ e.metaFiles ++ e.tsFiles ++ e.obsolete

structure Results where
  dataInfo : Option File
  metaInfo : Option File
  tsInfo : Option File
  ctypeInfo : Option File
  obsolete : List File

/-- What the file system and Swift's helpers bring along. A listing has the
files of the directory, in any order. -/
structure Directory where
  listdir : List File → List File
  listdir_perm : ∀ files, (listdir files).Perm files
  text : FileName → String
  decode : Timestamp → ℕ → Timestamp

variable (dir : Directory)

/-- The content type timestamp that parsing a `.meta` name gives. -/
def ctypeOf (f : File) : Option Timestamp := f.filename.ctypeRaw.map (dir.decode f.timestamp)

def ctypeOrZero (f : File) : Timestamp := (ctypeOf dir f).getD Timestamp.zero

def newestFirst (files : List File) : List File :=
  files.insertionSort fun a b => b.timestamp ≤ a.timestamp

def newestCtypeFirst (files : List File) : List File :=
  files.insertionSort fun a b => ctypeOrZero dir b ≤ ctypeOrZero dir a

def splitList (files : List File) (condition : File → Bool) : List File × List File :=
  (files.takeWhile condition, files.dropWhile condition)

def splitGt (files : List File) (t : Timestamp) : List File × List File :=
  splitList files fun f => f.timestamp > t

def splitGte (files : List File) (t : Timestamp) : List File × List File :=
  splitList files fun f => f.timestamp ≥ t

/-- The files by extension, each list newest first. -/
def byExtension (files : List File) : Exts :=
  let having := fun ext => newestFirst (files.filter fun f => f.filename.ext = ext)
  { dataFiles := having .data, metaFiles := having .posted, tsFiles := having .ts, obsolete := [] }

/-- Nothing at or below the newest tombstone counts. -/
def underTombstone (e : Exts) : Exts :=
  match e.tsFiles with
  | [] => e
  | newest :: older =>
      let (data, oldData) := splitGt e.dataFiles newest.timestamp
      let (posted, oldPosted) := splitGt e.metaFiles newest.timestamp
      { dataFiles := data, metaFiles := posted, tsFiles := [newest]
        obsolete := e.obsolete ++ oldData ++ oldPosted ++ older }

/-- The newest `.meta` file stays, and one more where its type is newer. -/
def retainMeta (e : Exts) : Exts :=
  match e.metaFiles with
  | [] => e
  | first :: rest =>
      match newestCtypeFirst dir rest with
      | [] => e
      | second :: others =>
          if ctypeOrZero dir second > ctypeOrZero dir first then
            if second.timestamp = first.timestamp then
              { e with metaFiles := [second], obsolete := e.obsolete ++ first :: others }
            else { e with metaFiles := [first, second], obsolete := e.obsolete ++ others }
          else { e with metaFiles := [first], obsolete := e.obsolete ++ second :: others }

/-- `DiskFileManager._process_ondisk_files`, with its `data_info`. -/
def processOndiskFiles (e : Exts) : Exts × Option File :=
  match e.dataFiles with
  | [] => (e, none)
  | newest :: _ =>
      let (data, oldData) := splitGte e.dataFiles newest.timestamp
      let (posted, oldPosted) := splitGt e.metaFiles newest.timestamp
      let (tombs, oldTombs) := splitGt e.tsFiles newest.timestamp
      ({ dataFiles := data, metaFiles := posted, tsFiles := tombs
         obsolete := e.obsolete ++ oldData ++ oldPosted ++ oldTombs }, some newest)

/-- What is left of the files by extension, and the `.data` file chosen. -/
def survivors (files : List File) : Exts × Option File :=
  processOndiskFiles (retainMeta dir (underTombstone (byExtension files)))

def getOndiskFiles (files : List File) : Results :=
  let (e, dataInfo) := survivors dir files
  match dataInfo with
  | some d =>
      { dataInfo := some d
        metaInfo := e.metaFiles.head?
        tsInfo := none
        ctypeInfo := e.metaFiles.getLast?.filter fun f => (ctypeOf dir f).any (· > d.timestamp)
        obsolete := e.obsolete }
  | none =>
      { dataInfo := none, metaInfo := none, tsInfo := e.tsFiles.head?, ctypeInfo := none
        obsolete := e.obsolete }

def verifyOndiskFiles (r : Results) : Bool :=
  (r.dataInfo.isNone && r.metaInfo.isNone && r.tsInfo.isNone) ||
  (r.tsInfo.isSome && r.dataInfo.isNone && r.metaInfo.isNone) ||
  (r.dataInfo.isSome && r.tsInfo.isNone)

/-- `files.sort(reverse=True)`, by the text of the names. -/
def sortNames (files : List File) : List File :=
  files.insertionSort fun a b => dir.text b.filename ≤ dir.text a.filename

def cleanupOndiskFiles (files : List File) : List File :=
  let results := getOndiskFiles dir (sortNames dir (dir.listdir files))
  files.filter fun f => f.filename ∉ results.obsolete.map File.filename

/-- A file moved into the directory replaces the one of its name. -/
def link (file : File) (files : List File) : List File :=
  file :: files.filter fun f => f.filename ≠ file.filename

/-- The file a writer makes: every one also keeps the object's name. -/
def fileOf (name : String) (ext : Ext) (metadata : Section) : File :=
  { filename := makeOnDiskFilename metadata.timestamp ext metadata.contentTypeTimestamp
    metadata := { metadata with rest := metadata.rest.insert "name" name } }

/-- `_put` and `_finalize_put`. -/
def writerPut (name : String) (ext : Ext) (metadata : Section) (files : List File) : List File :=
  cleanupOndiskFiles dir (link (fileOf name ext metadata) files)

def diskFileDelete (name : String) (timestamp : Timestamp) (files : List File) : List File :=
  writerPut dir name .ts (Section.stamped timestamp) files

def diskFileWriteMetadata (name : String) (metadata : Section) (files : List File) : List File :=
  writerPut dir name .posted metadata files

inductive OpenError
  | contractBroken
  | notExist
  | deleted (metadata : Section)
  deriving DecidableEq

/-- The dictionaries an open DiskFile keeps: the merged one and the file's own. -/
structure OpenFile where
  metadata : Section
  datafileMetadata : Section
  deriving DecidableEq

/-- Timestamps compared as the texts in the metadata: none is the empty text. -/
def laterText : Option Timestamp → Option Timestamp → Bool
  | none, _ => false
  | some _, none => true
  | some a, some b => a > b

def mergeContentTypeMetadata (dataTimestamp : Timestamp) (metafile ctypefile : Section) : Section :=
  if ctypefile.contentType.isSome ∧
      laterText ctypefile.contentTypeTimestamp metafile.contentTypeTimestamp ∧
      ctypefile.contentTypeTimestamp.any (· > dataTimestamp) then
    { metafile with
      contentType := ctypefile.contentType
      contentTypeTimestamp := ctypefile.contentTypeTimestamp }
  else metafile

/-- The newest `.meta` file's metadata, with the type of the second one. -/
def metafileMetadata (dataTimestamp : Timestamp) (metaFile : File) (ctypeFile : Option File) :
    Section :=
  match ctypeFile with
  | some c =>
      if c.filename ≠ metaFile.filename then
        mergeContentTypeMetadata dataTimestamp metaFile.metadata c.metadata
      else metaFile.metadata
  | none => metaFile.metadata

variable (isSysMeta : String → Bool)

def constructFromDataFile (data : Section) (metaFile ctypeFile : Option File) : OpenFile :=
  match metaFile with
  | none => ⟨data, data⟩
  | some m =>
      let metafile := metafileMetadata data.timestamp m ctypeFile
      let metadata := { metafile with
        rest := metafile.rest ∪ data.rest.filter fun key _ => belongsToData isSysMeta key }
      if data.contentType.isSome ∧ metafile.contentTypeTimestamp.all (data.timestamp > ·) then
        ⟨{ metadata with contentType := data.contentType, contentTypeTimestamp := none }, data⟩
      else ⟨metadata, data⟩

def diskFileOpen (files : List File) : Except OpenError OpenFile :=
  let results := getOndiskFiles dir (dir.listdir files)
  if verifyOndiskFiles results then
    match results.dataInfo, results.tsInfo with
    | some d, _ => .ok (constructFromDataFile isSysMeta d.metadata results.metaInfo results.ctypeInfo)
    | none, some t => .error (.deleted t.metadata)
    | none, none => .error .notExist
  else .error .contractBroken

end Swiftacular.OndiskFiles
