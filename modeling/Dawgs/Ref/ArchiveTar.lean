import Dawgs.Ref.TranslationCache

/-!
# Unpacking a collection from a tar stream

`unpackTarWithOptions` takes entry after entry from a stream nobody vouches
for. The name of an entry is sanitized to a relative path, a path that came
before is refused, so is everything but a regular file, and the file is then
created exclusively below the output directory. A collection is checked once
the stream has ended: the manifest among the files says which others there
must be, of what size and with which checksum.

The file system is a list of nodes under keys. A key is a path of names as the
file system tells them apart, which is what `fold` says: the identity, or the
lower case of a name where case makes no difference. What goes wrong while a
file is written is part of the entry. Texts are lists of characters.
-/

namespace Dawgs.Ref.Tar

abbrev Text := List Char

/-! ## Paths -/

def slash : Char := '/'

def dot : Text := ['.']

def dotDot : Text := ['.', '.']

/-- `strings.TrimSpace`. -/
def trim (t : Text) : Text := ((t.dropWhile isSpace).reverse.dropWhile isSpace).reverse

/-- One part of a path in `path.Clean`, after what is there already. -/
def cleanStep (rooted : Bool) (done : List Text) (part : Text) : List Text :=
  if part = [] ∨ part = dot then done
  else if part = dotDot then
    if done = [] ∨ done.getLast? = some dotDot then
      if rooted then done else done ++ [dotDot]
    else done.dropLast
  else done ++ [part]

/-- `path.Clean`. -/
def clean (p : Text) : Text :=
  let rooted : Bool := p.head? = some slash
  let parts := (p.splitOn slash).foldl (cleanStep rooted) []
  let joined := [slash].intercalate parts
  if rooted then slash :: joined else if parts = [] then dot else joined

def hasWindowsVolumeName : Text → Bool
  | first :: ':' :: _ => first.isAlpha
  | _ => false

inductive UnpackError where
  | empty | separators | absolute | traversal | invalid
  | notADirectory | notEmpty | createDirectory
  | readEntry | duplicate | notRegular | negativeSize
  | createParent | createFile | writeFile | sizeMismatch
  | manifest | unexpectedFile | missingFile | byteCount | checksum
deriving DecidableEq

def sanitizeArchivePath (value : Text) : Except UnpackError Text :=
  let trimmed := trim value
  if trimmed = [] then .error .empty
  else if '\\' ∈ trimmed then .error .separators
  else if trimmed.head? = some slash ∨ hasWindowsVolumeName trimmed then
    .error .absolute
  else if dotDot ∈ trimmed.splitOn slash then .error .traversal
  else
    let cleaned := clean trimmed
    if cleaned = dot ∨ cleaned = dotDot ∨ dotDot ++ [slash] <+: cleaned then
      .error .invalid
    else .ok cleaned

/-! ## The file system -/

abbrev Bytes := List UInt8

abbrev Key := List Text

inductive Node where
  | dir
  | file (content : Bytes)
deriving DecidableEq

abbrev Files := List (Key × Node)

/-- What the unpacking calls of the system. -/
structure System (M : Type) where
  /-- What of a name the file system tells apart. -/
  fold : Text → Text
  sha256 : Bytes → String
  /-- `json.Unmarshal` into a manifest. -/
  decode : Bytes → Option M

/-- A path from the root, cleaned: what `filepath.Join` makes of its parts. -/
def resolve (parts : List Text) : List Text := parts.foldl (cleanStep true) []

section

variable {M : Type} (sys : System M)

def System.key (path : List Text) : Key := path.map sys.fold

variable (fs : Files)

/-- `os.Stat`. The root is there and has no entry of its own. -/
def stat (key : Key) : Option Node :=
  if key = [] then some .dir else fs.lookup key

/-- `os.MkdirAll`, below a path that is there. The directories made before an
error stay. -/
def mkdirAll (fs : Files) (done : List Text) : List Text → Files × Bool
  | [] => (fs, true)
  | name :: rest =>
    let path := done ++ [name]
    match fs.lookup (sys.key path) with
    | some .dir => mkdirAll fs path rest
    | some (.file _) => (fs, false)
    | none => mkdirAll ((sys.key path, .dir) :: fs) path rest

def remove (key : Key) : Files := fs.filter (·.1 ≠ key)

/-- `os.RemoveAll`. -/
def removeAll (key : Key) : Files := fs.filter fun entry => ¬ key <+: entry.1

/-- `os.ReadDir` finds something: a directory is entered only through what it
holds directly. -/
def hasEntries (key : Key) : Bool := fs.any fun entry => key <+: entry.1 ∧ entry.1 ≠ key

def prepareOutputDirectory (outputDir : List Text)
    (force : Bool) : Files × Except UnpackError Unit :=
  let dir := resolve outputDir
  let make := fun fs : Files =>
    match mkdirAll sys fs [] dir with
    | (fs, true) => (fs, .ok ())
    | (fs, false) => (fs, .error .createDirectory)
  match stat fs (sys.key dir) with
  | some (.file _) => (fs, .error .notADirectory)
  | some .dir =>
    if hasEntries fs (sys.key dir) then
      if force then make (removeAll fs (sys.key dir))
      else (fs, .error .notEmpty)
    else make fs
  | none => make fs

/-! ## The stream -/

/-- An entry of the stream: its header, the bytes that can be copied, and
whether copying them or closing the file then fails. -/
structure Entry where
  name : Text
  regular : Bool
  size : Int
  body : Bytes
  copyFails : Bool
deriving DecidableEq

/-- The entries up to the end, or up to what cannot be read. -/
structure Stream where
  entries : List Entry
  endsWell : Bool

/-- `unpackedFileIntegrity`. -/
structure Integrity where
  compressedBytes : Nat
  sha256 : String
deriving DecidableEq

/-- `filepath.Join(outputDir, filepath.FromSlash(relativePath))`. -/
def absolutePath (outputDir : List Text) (relativePath : Text) : List Text :=
  resolve (outputDir ++ relativePath.splitOn slash)

def unpackTarFileTracked (outputDir : List Text) (relativePath : Text) (e : Entry) (track : Bool) :
    Files × Except UnpackError Integrity :=
  let path := absolutePath outputDir relativePath
  match mkdirAll sys fs [] path.dropLast with
  | (fs, false) => (fs, .error .createParent)
  | (fs, true) =>
    -- os.O_EXCL: what is there already is not opened.
    if (fs.lookup (sys.key path)).isSome then (fs, .error .createFile)
    else
      let created := (sys.key path, Node.file e.body) :: fs
      if e.copyFails then
        (remove created (sys.key path), .error .writeFile)
      else if (e.body.length : Int) ≠ e.size then
        (remove created (sys.key path), .error .sizeMismatch)
      else (created, .ok ⟨e.body.length, if track then sys.sha256 e.body else ""⟩)

/-- One turn of the loop of `unpackTarWithOptions`. -/
def unpackEntry (outputDir : List Text) (seen : List Text)
    (track : Bool) (e : Entry) : Files × Except UnpackError (Text × Integrity) :=
  match sanitizeArchivePath e.name with
  | .error err => (fs, .error err)
  | .ok relativePath =>
    if relativePath ∈ seen then (fs, .error .duplicate)
    else if ¬ e.regular then (fs, .error .notRegular)
    else if e.size < 0 then (fs, .error .negativeSize)
    else match unpackTarFileTracked sys fs outputDir relativePath e track with
      | (fs, .error err) => (fs, .error err)
      | (fs, .ok integrity) => (fs, .ok (relativePath, integrity))

/-- The loop. The paths of `integrity` are the ones seen; what else it holds
is read only where it is tracked. -/
def unpackEntries (outputDir : List Text) (track endsWell : Bool)
    (fs : Files) (integrity : List (Text × Integrity)) :
    List Entry → Files × Except UnpackError (List (Text × Integrity))
  | [] => (fs, if endsWell then .ok integrity else .error .readEntry)
  | e :: entries =>
    match unpackEntry sys fs outputDir (integrity.map (·.1)) track e with
    | (fs, .error err) => (fs, .error err)
    | (fs, .ok file) =>
      unpackEntries outputDir track endsWell fs (integrity ++ [file]) entries

def unpackTarWithOptions (stream : Stream) (outputDir : List Text) (force track : Bool) :
    Files × Except UnpackError (List (Text × Integrity)) :=
  match prepareOutputDirectory sys fs outputDir force with
  | (fs, .error err) => (fs, .error err)
  | (fs, .ok ()) =>
    unpackEntries sys outputDir track stream.endsWell fs [] stream.entries

end

/-! ## The collection -/

inductive Phase where
  | nodes | edges | other
deriving DecidableEq

/-- `FragmentManifest`. -/
structure FileEntry where
  path : Text
  phase : Phase
  count : Int
  compressedBytes : Int
  uncompressedBytes : Int
  sha256 : String
deriving DecidableEq

structure GraphEntry where
  name : String
  files : List FileEntry
  nodeCount : Int
  edgeCount : Int
deriving DecidableEq

/-- `Manifest`. What `validate` says of the format, the id strategy, the
compression, the scrub mode and the metrics is one answer. -/
structure Manifest where
  supported : Bool
  graphCount : Int
  graphs : List GraphEntry
deriving DecidableEq

def Manifest.files (m : Manifest) : List FileEntry := m.graphs.flatMap GraphEntry.files

def FileEntry.valid (f : FileEntry) : Bool :=
  f.path ≠ [] && f.phase ≠ .other && 0 ≤ f.count && 0 ≤ f.compressedBytes &&
    0 ≤ f.uncompressedBytes && f.sha256 ≠ ""

def GraphEntry.total (g : GraphEntry) (phase : Phase) : Int :=
  ((g.files.filter (·.phase = phase)).map FileEntry.count).sum

def GraphEntry.valid (g : GraphEntry) : Bool := g.name ≠ "" && g.files.all FileEntry.valid &&
    -- No node file after an edge file.
    g.files.Pairwise (fun f f' => f.phase = .edges → f'.phase ≠ .nodes) &&
    g.nodeCount = g.total .nodes && g.edgeCount = g.total .edges

/-- `Manifest.validate`. -/
def Manifest.validate (m : Manifest) : Bool :=
  m.supported && m.graphCount = m.graphs.length &&
    (m.graphs.map GraphEntry.name).Nodup && m.graphs.all GraphEntry.valid

def manifestFileName : Text := "manifest.json".toList

/-- The loop of `archivePathsFromManifest`. -/
def archivePaths (normalized : List Text) : List Text → Except UnpackError (List Text)
  | [] => .ok normalized
  | candidate :: rest =>
    match sanitizeArchivePath candidate with
    | .error err => .error err
    | .ok relativePath =>
      if relativePath ∈ normalized then .error .duplicate
      else archivePaths (normalized ++ [relativePath]) rest

def archivePathsFromManifest (m : Manifest) : Except UnpackError (List Text) :=
  (archivePaths [] (manifestFileName :: m.files.map FileEntry.path)).map
    (List.insertionSort (· ≤ ·))

def verifyChecksumValues (expectedSHA256 : String) (expectedBytes : Int)
    (actual : Integrity) : Except UnpackError Unit :=
  if 0 ≤ expectedBytes ∧ (actual.compressedBytes : Int) ≠ expectedBytes then
    .error .byteCount
  else if actual.sha256 ≠ expectedSHA256 then .error .checksum
  else .ok ()

section

variable (sys : System Manifest)

def readManifest (fs : Files) (inputDir : List Text) : Except UnpackError Manifest :=
  match fs.lookup (sys.key (absolutePath inputDir manifestFileName)) with
  | some (.file content) =>
    match sys.decode content with
    | some m => if m.validate then .ok m else .error .manifest
    | none => .error .manifest
  | _ => .error .manifest

/-- `validateExtractedCollection`. The integrity of a file is looked up under
the path as the manifest writes it; a missing one is the zero value. -/
def validateExtractedCollection (fs : Files) (outputDir : List Text)
    (files : List (Text × Integrity)) : Except UnpackError Manifest := do
  let m ← readManifest sys fs outputDir
  let expected ← archivePathsFromManifest m
  if files.any fun file => file.1 ∉ expected then .error .unexpectedFile
  else if expected.any fun path => path ∉ files.map (·.1) then
    .error .missingFile
  else do
    m.files.forM fun file => verifyChecksumValues file.sha256
      file.compressedBytes ((files.lookup file.path).getD ⟨0, ""⟩)
    return m

def unpackCollectionTarWithOptions (fs : Files) (stream : Stream)
    (outputDir : List Text) (force : Bool) : Files × Except UnpackError Manifest :=
  match unpackTarWithOptions sys fs stream outputDir force true with
  | (fs, .error err) => (fs, .error err)
  | (fs, .ok files) => (fs, validateExtractedCollection sys fs outputDir files)

end

end Dawgs.Ref.Tar
