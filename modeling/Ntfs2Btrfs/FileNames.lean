import Ntfs2Btrfs.Links
import Ntfs2Btrfs.Unicode

/-!
# The names of the converted files

`add_inode` makes links of the `FILE_NAME` attributes of an inode: the name is
transcoded and truncated, names in the DOS namespace and links from skipped
directories are left out, and a directory gets one link.  `create_inodes` links
all inodes into the tree that already holds the entry of the image.

Two links of one directory get the same name exactly when the transcoder sees
the same code points in the part of the names that fits, or when one of them
takes the name of the image.
-/

namespace Ntfs2Btrfs

open ByteStore
open PackedRecords

/-! ## The code -/

/-- `offsetof(FILE_NAME, FileName[0])`. -/
def fileNameOffset : Nat := 66

/-- `file_name_type::DOS`. -/
def dosNamespace : Nat := 2

/-- `NTFS_ROOT_DIR_INODE`. -/
def ntfsRootDirInode : Nat := 5

/-- `inode_offset`. -/
def inodeOffset : Nat := 0x101

/-- The fields of a `FILE_NAME` which `add_inode` reads. -/
structure FileName where
  parent : Nat
  namespaceType : Nat
  name : List UInt16
deriving DecidableEq

/-- The fields of the bytes of a `FILE_NAME`. -/
def readFileName (data : Bytes) : FileName :=
  let length := unle (slice data 64 1)
  { parent := unle (slice data 0 6)
    namespaceType := unle (slice data 65 1)
    name := (List.range length).map fun index =>
      UInt16.ofNat (unle (slice data (fileNameOffset + index * 2) 2)) }

/-- A `FILE_NAME` attribute: its form, and the data of a resident one. -/
inductive NameAttribute where
  | nonresident
  | resident (data : Bytes)
deriving DecidableEq

/-- The case of `FILE_NAME` in `add_inode`. -/
def addFileName
    (skiplist : List Nat) (isDir : Bool) (links : List (Nat × Bytes)) :
    NameAttribute → Except ConvertError (List (Nat × Bytes))
  | .nonresident => .error .fileNameNonResident
  | .resident data =>
      if data.length < fileNameOffset then .error .fileNameTruncated
      else if (readFileName data).namespaceType = dosNamespace then .ok links
      else if data.length < fileNameOffset + unle (slice data 64 1) * 2 then
        .error .fileNameTruncated
      else
        let name2 := linkName (readFileName data).name
        let parent := (readFileName data).parent
        if isDir = false ∨ links = [] then
          if parent ∈ skiplist ∨ (parent, name2) ∈ links then .ok links
          else .ok (links ++ [(parent, name2)])
        else .ok links

/-- A letter of ASCII in lower case. -/
def lowerAscii (letter : UInt8) : UInt8 :=
  if 0x41 ≤ letter ∧ letter ≤ 0x5a then letter - 0x41 + 0x61 else letter

/-- `string_eq_ci`. -/
def stringEqCi (s1 s2 : Bytes) : Prop :=
  s1.length = s2.length ∧
    ∀ pair ∈ s1.zip s2, lowerAscii pair.1 = lowerAscii pair.2

instance (s1 s2 : Bytes) : Decidable (stringEqCi s1 s2) :=
  inferInstanceAs (Decidable (_ ∧ _))

/-- The names `pagefile.sys`, `hiberfil.sys` and `swapfile.sys`. -/
def pageFileNames : List Bytes :=
  [[0x70, 0x61, 0x67, 0x65, 0x66, 0x69, 0x6c, 0x65, 0x2e, 0x73, 0x79, 0x73],
    [0x68, 0x69, 0x62, 0x65, 0x72, 0x66, 0x69, 0x6c, 0x2e, 0x73, 0x79, 0x73],
    [0x73, 0x77, 0x61, 0x70, 0x66, 0x69, 0x6c, 0x65, 0x2e, 0x73, 0x79, 0x73]]

/-- The links are those of a page file. -/
def linksPageFile : List (Nat × Bytes) → Prop
  | [(parent, name)] =>
      parent = ntfsRootDirInode ∧ ∃ pageFile ∈ pageFileNames, stringEqCi name pageFile
  | _ => False

instance (links : List (Nat × Bytes)) : Decidable (linksPageFile links) := by
  unfold linksPageFile
  split <;> infer_instance

/-- What `add_inode` reads of an inode to link it. -/
structure FileRecord where
  inode : Nat
  /-- The segment number of the base record, zero for a base record. -/
  base : Nat
  isDirectory : Bool
  /-- The unnamed `DATA` attribute is encrypted. -/
  encrypted : Bool
  fileNames : List NameAttribute
  /-- The type of the directory entries, made of the attributes. -/
  itemType : UInt8
deriving DecidableEq

namespace FileRecord

variable (skiplist : List Nat) (record : FileRecord)

/-- The links of an inode when `add_inode` does not return early. -/
def links : Except ConvertError (List (Nat × Bytes)) :=
  if record.base ≠ 0 then .ok []
  else do
    let links ← record.fileNames.foldlM (addFileName skiplist record.isDirectory) []
    -- skip encrypted inodes and page files
    if record.encrypted ∨ linksPageFile links then .ok [] else .ok links

/-- The call of `link_inode` for a link. -/
def linkCall (link : Nat × Bytes) : LinkCall :=
  { inode := UInt64.ofNat (record.inode + inodeOffset)
    dir :=
      if link.1 = ntfsRootDirInode then UInt64.ofNat firstFreeObjectid
      else UInt64.ofNat (link.1 + inodeOffset)
    name := link.2
    type := record.itemType }

end FileRecord

/-- `create_inodes`, on the inodes of the bitmap of the MFT in their order. -/
def createInodes (skiplist : List Nat) :
    List FileRecord → Root → Except ConvertError Root
  | [], root => .ok root
  | record :: rest, root => do
      let links ← record.links skiplist
      let next ← linkInodes (links.map record.linkCall) root
      createInodes skiplist rest next

/-! ## Which names are linked -/

/-- The name in a resident attribute. -/
def NameAttribute.file? : NameAttribute → Option FileName
  | .nonresident => none
  | .resident data => some (readFileName data)

/-- The value of a letter of ASCII in lower case. -/
def lowerValue (value : Nat) : Nat :=
  if 0x41 ≤ value ∧ value ≤ 0x5a then value + 0x20 else value

namespace FileRecord

variable (skiplist : List Nat) (record : FileRecord)

/-- The names outside the DOS namespace. -/
def names : List FileName :=
  (record.fileNames.filterMap NameAttribute.file?).filter
    fun file => file.namespaceType ≠ dosNamespace

/-- The names that are linked: those of skipped directories are left out. -/
def kept : List FileName :=
  let inside := record.names.filter fun file => file.parent ∉ skiplist
  if record.isDirectory then inside.take 1 else inside

/-- The only name of the inode is that of a page file in the root directory. -/
def IsPageFile : Prop :=
  ∃ file ∈ record.kept skiplist,
    (file.parent = ntfsRootDirInode ∧
      ∃ pageFile ∈ pageFileNames,
        (file.name.map UInt16.toNat).map lowerValue = pageFile.map UInt8.toNat) ∧
      ∀ other ∈ record.kept skiplist,
        other.parent = file.parent ∧ other.name = file.name

/-- The inode is linked into the directories of its names. -/
def Converted : Prop :=
  record.base = 0 ∧ record.encrypted = false ∧ ¬ record.IsPageFile skiplist

end FileRecord

/--
No linked name of the root directory is that of the image, and in no directory
the transcoder keeps the same code points of the names of two inodes.
-/
structure NamesStayApart (skiplist : List Nat) (records : List FileRecord) :
    Prop where
  image : ∀ record ∈ records, record.Converted skiplist →
    ∀ file ∈ record.kept skiplist, file.parent = ntfsRootDirInode →
      file.name.map UInt16.toNat ≠ subvolName.map UInt8.toNat
  apart : records.Pairwise fun record other =>
    record.Converted skiplist → other.Converted skiplist →
      ∀ file ∈ record.kept skiplist, ∀ file' ∈ other.kept skiplist,
        file.parent = file'.parent → keptPoints file.name ≠ keptPoints file'.name

/-- The directory and the name of every entry of a tree. -/
def directoryNames (root : Root) : List (Nat × Bytes) :=
  (packedView BtrfsKeyType.dirIndex readDirItem root.items).map fun entry =>
    (entry.1.objectid, entry.2.name)

/-! ## The links of one inode -/

/-- The directory of a name and the name it gets there. -/
def FileName.link (file : FileName) : Nat × Bytes :=
  (file.parent, linkName file.name)

/-- What a name outside the DOS namespace does to the links. -/
def addLink
    (skiplist : List Nat) (isDir : Bool) (links : List (Nat × Bytes))
    (file : FileName) : List (Nat × Bytes) :=
  if isDir = false ∨ links = [] then
    if file.parent ∈ skiplist ∨ file.link ∈ links then links
    else links ++ [file.link]
  else links

theorem addFileName_ok
    {skiplist : List Nat} {isDir : Bool} {links next : List (Nat × Bytes)}
    {data : Bytes}
    (added : addFileName skiplist isDir links (.resident data) = .ok next) :
    next =
      if (readFileName data).namespaceType = dosNamespace then links
      else addLink skiplist isDir links (readFileName data) := by
  rw [addFileName] at added
  split_ifs at added with short dos long started
  · rw [if_pos dos]
    exact (Except.ok.inj added).symm
  · rw [if_neg dos, addLink, if_pos started, FileName.link]
    dsimp only at added
    split_ifs at added ⊢
    · exact (Except.ok.inj added).symm
    · exact (Except.ok.inj added).symm
  · rw [if_neg dos, addLink, if_neg started]
    exact (Except.ok.inj added).symm

/-- The attributes of an inode add their names one after the other. -/
theorem foldlM_addFileName_ok
    {skiplist : List Nat} {isDir : Bool} {attributes : List NameAttribute} :
    ∀ {links next : List (Nat × Bytes)},
      attributes.foldlM (addFileName skiplist isDir) links = .ok next →
        next =
          ((attributes.filterMap NameAttribute.file?).filter
            fun file => file.namespaceType ≠ dosNamespace).foldl
              (addLink skiplist isDir) links := by
  induction attributes with
  | nil =>
    intro links next done
    exact (Except.ok.inj done).symm
  | cons first rest ih =>
    intro links next done
    rw [List.foldlM_cons] at done
    cases first with
    | nonresident => exact absurd done (by simp [addFileName, bind, Except.bind])
    | resident data =>
      cases added : addFileName skiplist isDir links (.resident data) with
      | error failure =>
        rw [added] at done
        exact absurd done (by simp [bind, Except.bind])
      | ok middle =>
        rw [added] at done
        have following := ih done
        rw [addFileName_ok added] at following
        rw [List.filterMap_cons_some (show (NameAttribute.resident data).file? =
          some (readFileName data) from rfl), List.filter_cons]
        by_cases dos : (readFileName data).namespaceType = dosNamespace
        · rw [if_pos dos] at following
          rw [if_neg (by simpa using dos)]
          exact following
        · rw [if_neg dos] at following
          rw [if_pos (by simpa using dos), List.foldl_cons]
          exact following

/-- A file is linked under each of its names once. -/
theorem foldl_addLink_file
    (skiplist : List Nat) (files : List FileName) :
    ∀ {links : List (Nat × Bytes)}, links.Nodup →
      (files.foldl (addLink skiplist false) links).Nodup ∧
        ∀ link, link ∈ files.foldl (addLink skiplist false) links ↔
          link ∈ links ∨
            link ∈ (files.filter fun file => file.parent ∉ skiplist).map
              FileName.link := by
  induction files with
  | nil => exact fun nodup => ⟨nodup, fun link => by simp⟩
  | cons file rest ih =>
    intro links nodup
    rw [List.foldl_cons, addLink, if_pos (Or.inl rfl)]
    by_cases skipped : file.parent ∈ skiplist
    · rw [if_pos (Or.inl skipped), List.filter_cons_of_neg (by simpa using skipped)]
      exact ih nodup
    · rw [List.filter_cons_of_pos (by simpa using skipped)]
      by_cases present : file.link ∈ links
      · rw [if_pos (Or.inr present)]
        obtain ⟨distinct, members⟩ := ih nodup
        refine ⟨distinct, fun link => ?_⟩
        rw [members, List.map_cons, List.mem_cons]
        constructor
        · rintro (old | new)
          · exact Or.inl old
          · exact Or.inr (Or.inr new)
        · rintro (old | rfl | new)
          · exact Or.inl old
          · exact Or.inl present
          · exact Or.inr new
      · rw [if_neg (not_or.mpr ⟨skipped, present⟩)]
        obtain ⟨distinct, members⟩ :=
          ih (by simpa using nodup.concat present)
        refine ⟨distinct, fun link => ?_⟩
        rw [members, List.mem_append, List.mem_singleton, List.map_cons,
          List.mem_cons, or_assoc]

theorem foldl_addLink_started
    (skiplist : List Nat) (files : List FileName) {links : List (Nat × Bytes)}
    (started : links ≠ []) :
    files.foldl (addLink skiplist true) links = links := by
  induction files with
  | nil => rfl
  | cons file rest ih =>
    rw [List.foldl_cons, addLink, if_neg (by simpa using started)]
    exact ih

/-- A directory is linked under its first name only. -/
theorem foldl_addLink_directory (skiplist : List Nat) (files : List FileName) :
    files.foldl (addLink skiplist true) [] =
      ((files.filter fun file => file.parent ∉ skiplist).take 1).map
        FileName.link := by
  induction files with
  | nil => rfl
  | cons file rest ih =>
    rw [List.foldl_cons, addLink, if_pos (Or.inr rfl)]
    by_cases skipped : file.parent ∈ skiplist
    · rw [if_pos (Or.inl skipped), List.filter_cons_of_neg (by simpa using skipped)]
      exact ih
    · rw [if_neg (not_or.mpr ⟨skipped, List.not_mem_nil⟩),
        List.filter_cons_of_pos (by simpa using skipped),
        foldl_addLink_started skiplist rest (by simp)]
      rfl

/-- The links that are made of the names of an inode. -/
theorem foldl_addLink_kept
    (skiplist : List Nat) (record : FileRecord) :
    let links := record.names.foldl (addLink skiplist record.isDirectory) []
    links.Nodup ∧
      ∀ link, link ∈ links ↔ link ∈ (record.kept skiplist).map FileName.link := by
  rw [FileRecord.kept]
  cases record.isDirectory with
  | false =>
    obtain ⟨distinct, members⟩ :=
      foldl_addLink_file skiplist record.names List.nodup_nil
    refine ⟨distinct, fun link => (members link).trans ?_⟩
    rw [if_neg (by decide)]
    exact or_iff_right List.not_mem_nil
  | true =>
    rw [foldl_addLink_directory, if_pos rfl]
    refine ⟨?_, fun link => Iff.rfl⟩
    cases record.names.filter fun file => decide (file.parent ∉ skiplist) with
    | nil => exact List.nodup_nil
    | cons first rest => exact List.nodup_singleton _

/-! ## Page files -/

theorem stringEqCi_iff (s1 s2 : Bytes) :
    stringEqCi s1 s2 ↔ s1.map lowerAscii = s2.map lowerAscii := by
  rw [stringEqCi, ← List.forall₂_eq_eq_eq, List.forall₂_map_left_iff,
    List.forall₂_map_right_iff, List.forall₂_iff_zip]
  constructor
  · rintro ⟨length, same⟩
    exact ⟨length, fun member => same _ member⟩
  · rintro ⟨length, same⟩
    exact ⟨length, fun pair member => same member⟩

theorem lowerAscii_toNat (letter : UInt8) :
    (lowerAscii letter).toNat = lowerValue letter.toNat := by
  have range : 0x41 ≤ letter ∧ letter ≤ 0x5a ↔
      0x41 ≤ letter.toNat ∧ letter.toNat ≤ 0x5a :=
    and_congr UInt8.le_iff_toNat_le UInt8.le_iff_toNat_le
  rw [lowerAscii, lowerValue]
  by_cases upper : 0x41 ≤ letter.toNat ∧ letter.toNat ≤ 0x5a
  · rw [if_pos (range.mpr upper), if_pos upper, UInt8.toNat_add,
      UInt8.toNat_sub_of_le _ _ (range.mpr upper).1]
    obtain ⟨lower, upper⟩ := upper
    show (letter.toNat - 0x41 + 0x61) % 2 ^ 8 = letter.toNat + 0x20
    omega
  · rw [if_neg (mt range.mp upper), if_neg upper]

theorem map_lowerAscii_toNat (text : Bytes) :
    (text.map lowerAscii).map UInt8.toNat = (text.map UInt8.toNat).map lowerValue := by
  rw [List.map_map, List.map_map]
  exact List.map_congr_left fun letter _ => lowerAscii_toNat letter

theorem ascii_of_lowerValue {text : List Nat} (ascii : Ascii (text.map lowerValue)) :
    Ascii text := by
  intro value member
  have small := ascii _ (List.mem_map_of_mem member)
  rw [lowerValue] at small
  split_ifs at small <;> omega

/-- The names of page files are in lower case, in ASCII and short. -/
theorem pageFile_spelling {pageFile : Bytes} (known : pageFile ∈ pageFileNames) :
    pageFile.map lowerAscii = pageFile ∧ Ascii (pageFile.map UInt8.toNat) ∧
      pageFile.length ≤ 251 := by
  have checked : ∀ text ∈ pageFileNames, text.map lowerAscii = text ∧
      (∀ point ∈ text.map UInt8.toNat, point < 0x80) ∧ text.length ≤ 251 := by
    decide
  exact checked pageFile known

/-- A name that is a page file in some spelling is a name in ASCII. -/
theorem units_of_spelled
    {name : List UInt16} {pageFile : Bytes} (known : pageFile ∈ pageFileNames)
    (spelled : stringEqCi (linkName name) pageFile) :
    name.map UInt16.toNat = (linkName name).map UInt8.toNat := by
  obtain ⟨lower, ascii, short⟩ := pageFile_spelling known
  rw [stringEqCi_iff, lower] at spelled
  have values := congrArg (List.map UInt8.toNat) spelled
  rw [map_lowerAscii_toNat] at values
  have length : (linkName name).length = pageFile.length := by
    rw [← List.length_map lowerAscii, spelled]
  exact (linkName_eq_ascii_iff name (ascii_of_lowerValue (values ▸ ascii))
    (length ▸ short)).mp rfl

theorem stringEqCi_linkName_iff
    (name : List UInt16) {pageFile : Bytes} (known : pageFile ∈ pageFileNames) :
    stringEqCi (linkName name) pageFile ↔
      (name.map UInt16.toNat).map lowerValue = pageFile.map UInt8.toNat := by
  obtain ⟨lower, ascii, short⟩ := pageFile_spelling known
  constructor
  · intro spelled
    have values := congrArg (List.map UInt8.toNat) ((stringEqCi_iff _ _).mp spelled)
    rw [lower, map_lowerAscii_toNat] at values
    rw [units_of_spelled known spelled, values]
  · intro equal
    have unitsAscii : Ascii (name.map UInt16.toNat) := ascii_of_lowerValue (equal ▸ ascii)
    have units : name.map UInt16.toNat =
        (name.map fun unit => UInt8.ofNat unit.toNat).map UInt8.toNat := by
      rw [List.map_map]
      refine List.map_congr_left fun unit member => ?_
      have small := unitsAscii _ (List.mem_map_of_mem member)
      exact (toNat_ofNat_byte (by omega)).symm
    have length : name.length = pageFile.length := by
      simpa using congrArg List.length equal
    have text : linkName name = name.map fun unit => UInt8.ofNat unit.toNat :=
      (linkName_eq_ascii_iff name (units ▸ unitsAscii)
        (by rw [List.length_map]; omega)).mpr units
    rw [stringEqCi_iff, lower]
    refine List.map_injective_iff.mpr (fun a b => UInt8.toNat_inj.mp) ?_
    rw [map_lowerAscii_toNat, text, ← units, equal]

theorem linksPageFile_iff (links : List (Nat × Bytes)) :
    linksPageFile links ↔
      ∃ link, links = [link] ∧ link.1 = ntfsRootDirInode ∧
        ∃ pageFile ∈ pageFileNames, stringEqCi link.2 pageFile := by
  constructor
  · intro page
    match links, page with
    | [link], page => exact ⟨link, rfl, page⟩
  · rintro ⟨link, rfl, page⟩
    exact page

/-- The test on the links is a test on the names of the inode. -/
theorem linksPageFile_iff_isPageFile
    {skiplist : List Nat} {record : FileRecord} {links : List (Nat × Bytes)}
    (distinct : links.Nodup)
    (members :
      ∀ link, link ∈ links ↔ link ∈ (record.kept skiplist).map FileName.link) :
    linksPageFile links ↔ record.IsPageFile skiplist := by
  rw [linksPageFile_iff]
  constructor
  · rintro ⟨link, rfl, isRoot, pageFile, known, spelled⟩
    obtain ⟨file, kept, rfl⟩ :=
      List.mem_map.mp ((members link).mp (List.mem_singleton_self link))
    have only (other : FileName) (otherKept : other ∈ record.kept skiplist) :
        other.link = file.link :=
      List.mem_singleton.mp ((members _).mpr (List.mem_map_of_mem otherKept))
    have units := (stringEqCi_linkName_iff file.name known).mp spelled
    refine ⟨file, kept, ⟨isRoot, pageFile, known, units⟩, fun other otherKept => ?_⟩
    have same := only other otherKept
    refine ⟨congrArg Prod.fst same, ?_⟩
    have sameName : linkName other.name = linkName file.name := congrArg Prod.snd same
    refine List.map_injective_iff.mpr (fun a b => UInt16.toNat_inj.mp) ?_
    rw [units_of_spelled known spelled,
      units_of_spelled known (sameName ▸ spelled), sameName]
  · rintro ⟨file, kept, ⟨isRoot, pageFile, known, units⟩, only⟩
    refine ⟨file.link, ?_, isRoot, pageFile, known,
      (stringEqCi_linkName_iff file.name known).mpr units⟩
    have present : file.link ∈ links := (members _).mpr (List.mem_map_of_mem kept)
    have all (link : Nat × Bytes) (member : link ∈ links) : link = file.link := by
      obtain ⟨other, otherKept, rfl⟩ := List.mem_map.mp ((members link).mp member)
      obtain ⟨sameParent, sameName⟩ := only other otherKept
      rw [FileName.link, FileName.link, sameParent, sameName]
    cases links with
    | nil => exact absurd present List.not_mem_nil
    | cons first rest =>
      rw [all first List.mem_cons_self] at distinct ⊢
      have none : rest = [] :=
        List.eq_nil_iff_forall_not_mem.mpr fun link member =>
          (List.nodup_cons.mp distinct).1
            (all link (List.mem_cons_of_mem _ member) ▸ member)
      rw [none]

/-- The links of an inode are those of its names, when it is converted. -/
theorem FileRecord.links_ok
    {skiplist : List Nat} {record : FileRecord} {links : List (Nat × Bytes)}
    (made : record.links skiplist = .ok links) :
    links.Nodup ∧
      ∀ link, link ∈ links ↔
        record.Converted skiplist ∧
          link ∈ (record.kept skiplist).map FileName.link := by
  rw [FileRecord.links] at made
  split_ifs at made with extension
  · obtain rfl := Except.ok.inj made
    refine ⟨List.nodup_nil, fun link => ?_⟩
    exact iff_of_false List.not_mem_nil fun both => extension both.1.1
  · cases read : record.fileNames.foldlM (addFileName skiplist record.isDirectory) [] with
    | error failure =>
      rw [read] at made
      exact absurd made (by simp [bind, Except.bind])
    | ok all =>
      rw [read] at made
      have folded := foldlM_addFileName_ok read
      obtain ⟨distinct, members⟩ := foldl_addLink_kept skiplist record
      rw [FileRecord.names, ← folded] at distinct members
      have page := linksPageFile_iff_isPageFile distinct members
      have base : record.base = 0 := not_not.mp extension
      change (if record.encrypted = true ∨ linksPageFile all then _ else _) = _ at made
      split_ifs at made with skipped
      · obtain rfl := Except.ok.inj made
        refine ⟨List.nodup_nil, fun link => ?_⟩
        refine iff_of_false List.not_mem_nil fun both => ?_
        obtain ⟨⟨-, plain, notPage⟩, -⟩ := both
        rcases skipped with encrypted | pageLinks
        · exact absurd (encrypted.symm.trans plain) (by decide)
        · exact notPage (page.mp pageLinks)
      · obtain rfl := Except.ok.inj made
        obtain ⟨plain, notPage⟩ := not_or.mp skipped
        refine ⟨distinct, fun link => (members link).trans ?_⟩
        exact (and_iff_right
          ⟨base, Bool.eq_false_iff.mpr plain, mt page.mpr notPage⟩).symm

/-! ## The links of all inodes -/

/-- The links that are made of an inode. -/
def FileRecord.linkList (skiplist : List Nat) (record : FileRecord) :
    List (Nat × Bytes) :=
  match record.links skiplist with
  | .ok links => links
  | .error _ => []

theorem linkInodes_append (calls others : List LinkCall) (root : Root) :
    linkInodes (calls ++ others) root =
      linkInodes calls root >>= linkInodes others := by
  induction calls generalizing root with
  | nil => rfl
  | cons call rest ih =>
    rw [List.cons_append, linkInodes, linkInodes]
    cases linkInode root call.inode.toNat call.dir.toNat call.name call.type.toNat with
    | error failure => rfl
    | ok next => exact ih next

/-- `create_inodes` performs the calls of all inodes one after the other. -/
theorem createInodes_eq
    {skiplist : List Nat} {records : List FileRecord} :
    ∀ {root : Root},
      (∀ record ∈ records,
        record.links skiplist = .ok (record.linkList skiplist)) →
      createInodes skiplist records root =
        linkInodes
          (records.flatMap fun record =>
            (record.linkList skiplist).map record.linkCall) root := by
  induction records with
  | nil => exact fun _ => rfl
  | cons record rest ih =>
    intro root made
    obtain ⟨first, others⟩ := List.forall_mem_cons.mp made
    rw [List.flatMap_cons, linkInodes_append, createInodes, first]
    exact bind_congr fun next => ih others

theorem createInodes_ok
    {skiplist : List Nat} {records : List FileRecord} :
    ∀ {root final : Root}, createInodes skiplist records root = .ok final →
      ∀ record ∈ records,
        record.links skiplist = .ok (record.linkList skiplist) := by
  induction records with
  | nil => exact fun _ record member => absurd member List.not_mem_nil
  | cons record rest ih =>
    intro root final done
    rw [createInodes] at done
    cases made : record.links skiplist with
    | error failure =>
      rw [made] at done
      exact absurd done (by simp [bind, Except.bind])
    | ok links =>
      rw [made] at done
      change linkInodes (links.map record.linkCall) root >>= _ = _ at done
      cases linked : linkInodes (links.map record.linkCall) root with
      | error failure =>
        rw [linked] at done
        exact absurd done (by simp [bind, Except.bind])
      | ok next =>
        rw [linked] at done
        refine List.forall_mem_cons.mpr ⟨?_, ih done⟩
        rw [made, FileRecord.linkList, made]

/-- The Btrfs inode of the directory with an NTFS inode. -/
def directoryInode (parent : Nat) : Nat :=
  if parent = ntfsRootDirInode then firstFreeObjectid else parent + inodeOffset

theorem directoryInode_inj {left right : Nat} :
    directoryInode left = directoryInode right ↔ left = right := by
  constructor
  · intro equal
    have free : firstFreeObjectid < inodeOffset := by decide
    rw [directoryInode, directoryInode] at equal
    split_ifs at equal <;> omega
  · rintro rfl
    rfl

theorem directoryInode_eq_root_iff (parent : Nat) :
    directoryInode parent = firstFreeObjectid ↔ parent = ntfsRootDirInode :=
  (directoryInode_inj :
    directoryInode parent = directoryInode ntfsRootDirInode ↔ _)

theorem readFileName_parent_lt (data : Bytes) :
    (readFileName data).parent < 2 ^ 48 := by
  have bound := unle_lt (slice data 0 6)
  have length : (slice data 0 6).length ≤ 6 := by
    rw [slice, List.length_take]
    exact Nat.min_le_left _ _
  exact lt_of_lt_of_le bound
    ((Nat.pow_le_pow_right (by decide) length).trans (by decide : 256 ^ 6 ≤ 2 ^ 48))

theorem FileRecord.kept_parent_lt
    {skiplist : List Nat} {record : FileRecord} {file : FileName}
    (kept : file ∈ record.kept skiplist) :
    file.parent < 2 ^ 48 := by
  have inside : file ∈ record.names.filter fun file => decide (file.parent ∉ skiplist) := by
    rw [FileRecord.kept] at kept
    split_ifs at kept
    · exact List.mem_of_mem_take kept
    · exact kept
  obtain ⟨read, -⟩ := List.mem_filter.mp (List.mem_filter.mp inside).1
  obtain ⟨form, -, found⟩ := List.mem_filterMap.mp read
  cases form with
  | nonresident => exact absurd found (by simp [NameAttribute.file?])
  | resident data =>
    obtain rfl := Option.some.inj found
    exact readFileName_parent_lt data

/-- The directory and the name of a call that is made for a link. -/
theorem FileRecord.linkCall_target
    (record : FileRecord) {link : Nat × Bytes} (small : link.1 < 2 ^ 48) :
    ((record.linkCall link).dir.toNat, (record.linkCall link).name) =
      (directoryInode link.1, link.2) := by
  have dir : (record.linkCall link).dir.toNat = directoryInode link.1 := by
    rw [FileRecord.linkCall, directoryInode]
    split_ifs
    · exact (by decide : (UInt64.ofNat firstFreeObjectid).toNat = firstFreeObjectid)
    · have offset : inodeOffset = 0x101 := rfl
      exact UInt64.toNat_ofNat_of_lt' (show link.1 + inodeOffset < 2 ^ 64 by omega)
  rw [dir]
  rfl

theorem target_inj {left right : Nat × Bytes} :
    (directoryInode left.1, left.2) = (directoryInode right.1, right.2) ↔
      left = right := by
  rw [Prod.mk.injEq, directoryInode_inj, Prod.ext_iff]

/-- What the calls for an inode add to the directories. -/
theorem FileRecord.targets
    {skiplist : List Nat} {record : FileRecord}
    (made : record.links skiplist = .ok (record.linkList skiplist)) :
    ((record.linkList skiplist).map record.linkCall).map
        (fun call => (call.dir.toNat, call.name)) =
      (record.linkList skiplist).map fun link => (directoryInode link.1, link.2) := by
  rw [List.map_map]
  refine List.map_congr_left fun link member => ?_
  obtain ⟨-, kept⟩ := ((FileRecord.links_ok made).2 link).mp member
  obtain ⟨file, fileKept, rfl⟩ := List.mem_map.mp kept
  exact record.linkCall_target (FileRecord.kept_parent_lt fileKept)

/-- The names in the directories of a tree into which the inodes were linked. -/
theorem createInodes_directoryNames
    {skiplist : List Nat} {records : List FileRecord} {start final : Root}
    (started : fstreeStart = .ok start)
    (done : createInodes skiplist records start = .ok final) :
    (directoryNames final).Perm
      ((firstFreeObjectid, subvolName) ::
        records.flatMap fun record =>
          (record.linkList skiplist).map fun link =>
            (directoryInode link.1, link.2)) := by
  have made := createInodes_ok done
  have run := (createInodes_eq made).symm.trans done
  obtain ⟨root, rootStarted, linked, -⟩ := fstreeStart_linked
  obtain rfl : start = root := Except.ok.inj (started.symm.trans rootStarted)
  have named : ∀ call ∈ records.flatMap fun record =>
      (record.linkList skiplist).map record.linkCall, call.name.length ≤ 255 := by
    intro call member
    obtain ⟨record, recordMember, callMember⟩ := List.mem_flatMap.mp member
    obtain ⟨link, linkMember, rfl⟩ := List.mem_map.mp callMember
    obtain ⟨-, kept⟩ :=
      ((FileRecord.links_ok (made record recordMember)).2 link).mp linkMember
    obtain ⟨file, -, rfl⟩ := List.mem_map.mp kept
    exact length_linkName_le file.name
  obtain ⟨links, callsEq, finalLinked⟩ := linked.run named run
  have view := finalLinked.dirIndex.2.map fun entry : BtrfsKey × DirItem =>
    (entry.1.objectid, entry.2.name)
  have targets :
      (links.map Link.dirIndex).map
          (fun entry : BtrfsKey × DirItem => (entry.1.objectid, entry.2.name)) =
        (links.map Link.call).map fun call => (call.dir.toNat, call.name) := by
    rw [List.map_map, List.map_map]
    refine List.map_congr_left fun link _ => ?_
    show (link.call.dir.toNat % 2 ^ 64, link.call.name) = _
    rw [Nat.mod_eq_of_lt link.call.dir.toNat_lt]
    rfl
  have all :
      (records.flatMap fun record =>
          (record.linkList skiplist).map record.linkCall).map
          (fun call => (call.dir.toNat, call.name)) =
        records.flatMap fun record =>
          (record.linkList skiplist).map fun link =>
            (directoryInode link.1, link.2) := by
    rw [List.map_flatMap]
    exact List.flatMap_congr fun record member => FileRecord.targets (made record member)
  rw [List.map_append, List.map_reverse, targets, callsEq, all] at view
  refine view.trans ?_
  exact List.perm_append_comm.trans (List.Perm.cons _ (List.reverse_perm _))

/-- A name that an inode adds to a directory. -/
theorem FileRecord.mem_targets_iff
    {skiplist : List Nat} {record : FileRecord}
    (made : record.links skiplist = .ok (record.linkList skiplist))
    (target : Nat × Bytes) :
    (target ∈ (record.linkList skiplist).map fun link =>
        (directoryInode link.1, link.2)) ↔
      record.Converted skiplist ∧ ∃ file ∈ record.kept skiplist,
        target = (directoryInode file.parent, linkName file.name) := by
  rw [List.mem_map]
  constructor
  · rintro ⟨link, member, rfl⟩
    obtain ⟨converted, kept⟩ := ((FileRecord.links_ok made).2 link).mp member
    obtain ⟨file, fileKept, rfl⟩ := List.mem_map.mp kept
    exact ⟨converted, file, fileKept, rfl⟩
  · rintro ⟨converted, file, kept, rfl⟩
    exact
      ⟨file.link,
        ((FileRecord.links_ok made).2 _).mpr ⟨converted, List.mem_map_of_mem kept⟩, rfl⟩

/-- When no two entries of the directories have the same name. -/
theorem createInodes_nodup_iff
    {skiplist : List Nat} {records : List FileRecord} {start final : Root}
    (started : fstreeStart = .ok start)
    (done : createInodes skiplist records start = .ok final) :
    (directoryNames final).Nodup ↔ NamesStayApart skiplist records := by
  have made := createInodes_ok done
  have image :
      ((firstFreeObjectid, subvolName) ∉ records.flatMap fun record =>
          (record.linkList skiplist).map fun link =>
            (directoryInode link.1, link.2)) ↔
        ∀ record ∈ records, record.Converted skiplist →
          ∀ file ∈ record.kept skiplist, file.parent = ntfsRootDirInode →
            file.name.map UInt16.toNat ≠ subvolName.map UInt8.toNat := by
    have spelled (name : List UInt16) :
        linkName name = subvolName ↔
          name.map UInt16.toNat = subvolName.map UInt8.toNat :=
      linkName_eq_ascii_iff name
        (by decide : ∀ point ∈ subvolName.map UInt8.toNat, point < 0x80) (by decide)
    rw [List.mem_flatMap]
    constructor
    · intro absent record member converted file kept isRoot same
      refine absent ⟨record, member, ?_⟩
      refine (FileRecord.mem_targets_iff (made record member) _).mpr
        ⟨converted, file, kept, ?_⟩
      rw [(directoryInode_eq_root_iff file.parent).mpr isRoot, (spelled _).mpr same]
    · rintro apart ⟨record, member, target⟩
      obtain ⟨converted, file, kept, equal⟩ :=
        (FileRecord.mem_targets_iff (made record member) _).mp target
      obtain ⟨sameDir, sameName⟩ := Prod.mk.inj equal
      exact apart record member converted file kept
        ((directoryInode_eq_root_iff file.parent).mp sameDir.symm)
        ((spelled _).mp sameName.symm)
  have apart {record other : FileRecord}
      (member : record ∈ records) (otherMember : other ∈ records) :
      (Function.onFun List.Disjoint (fun record : FileRecord =>
          (record.linkList skiplist).map fun link =>
            (directoryInode link.1, link.2)) record other) ↔
        (record.Converted skiplist → other.Converted skiplist →
          ∀ file ∈ record.kept skiplist, ∀ file' ∈ other.kept skiplist,
            file.parent = file'.parent →
              keptPoints file.name ≠ keptPoints file'.name) := by
    constructor
    · intro disjoint converted otherConverted file kept file' kept' sameDir sameName
      refine disjoint
        ((FileRecord.mem_targets_iff (made record member) _).mpr
          ⟨converted, file, kept, rfl⟩)
        ((FileRecord.mem_targets_iff (made other otherMember) _).mpr
          ⟨otherConverted, file', kept', ?_⟩)
      rw [sameDir, (linkName_eq_iff _ _).mpr sameName]
    · intro differ target here there
      obtain ⟨converted, file, kept, rfl⟩ :=
        (FileRecord.mem_targets_iff (made record member) _).mp here
      obtain ⟨otherConverted, file', kept', equal⟩ :=
        (FileRecord.mem_targets_iff (made other otherMember) _).mp there
      obtain ⟨sameDir, sameName⟩ := Prod.mk.inj equal
      exact differ converted otherConverted file kept file' kept'
        (directoryInode_inj.mp sameDir) ((linkName_eq_iff _ _).mp sameName)
  rw [(createInodes_directoryNames started done).nodup_iff, List.nodup_cons,
    List.nodup_flatMap, image, List.Pairwise.iff_of_mem apart]
  constructor
  · rintro ⟨free, -, differ⟩
    exact ⟨free, differ⟩
  · rintro ⟨free, differ⟩
    refine ⟨free, fun record member => ?_, differ⟩
    exact (FileRecord.links_ok (made record member)).1.map fun left right =>
      target_inj.mp

/-- The bytes of a `FILE_NAME`, with zeros in the fields that are not read. -/
def FileName.bytes (file : FileName) : Bytes :=
  le 6 file.parent ++ List.replicate 58 0 ++ le 1 file.name.length ++
    le 1 file.namespaceType ++ file.name.flatMap fun unit => le 2 unit.toNat

/-- A file with one name. -/
def FileRecord.ofName (inode : Nat) (file : FileName) : FileRecord :=
  { inode := inode
    base := 0
    isDirectory := false
    encrypted := false
    fileNames := [.resident file.bytes]
    itemType := 1 }

theorem createInodes_returns
    {skiplist : List Nat} {records : List FileRecord}
    (made : ∀ record ∈ records,
      record.links skiplist = .ok (record.linkList skiplist))
    (few : (records.flatMap fun record =>
      (record.linkList skiplist).map record.linkCall).length < wordModulus - 3) :
    ∃ start final, fstreeStart = .ok start ∧
      createInodes skiplist records start = .ok final := by
  obtain ⟨start, started, -, ahead⟩ := fstreeStart_linked
  have modulus : 3 ≤ wordModulus := by decide
  have small : 3 + (records.flatMap fun record =>
      (record.linkList skiplist).map record.linkCall).length < wordModulus := by
    omega
  obtain ⟨final, run⟩ := ahead.run small
  exact ⟨start, final, started, (createInodes_eq made).trans run⟩

/-- Two files with different names in one directory. -/
theorem createInodes_nodup_iff_two_names :
    (let records :=
      [FileRecord.ofName 30 ⟨5, 1, [0x61]⟩, FileRecord.ofName 31 ⟨5, 1, [0x62]⟩]
    ∃ start final, fstreeStart = .ok start ∧
      createInodes [] records start = .ok final ∧
        ((directoryNames final).Nodup ↔ NamesStayApart [] records)) := by
  intro records
  obtain ⟨start, final, started, done⟩ :=
    createInodes_returns
      (by decide +kernel : ∀ record ∈ records,
        record.links [] = .ok (record.linkList []))
      (by decide +kernel)
  exact ⟨start, final, started, done, createInodes_nodup_iff started done⟩

/--
The characters U+10000 and U+20000 are different names of two files in one
directory, and both files get the name of the first.
-/
theorem createInodes_confuses_names :
    (let records :=
      [FileRecord.ofName 30 ⟨29, 1, [0xd800, 0xdc00]⟩,
        FileRecord.ofName 31 ⟨29, 1, [0xd840, 0xdc00]⟩]
    (records.flatMap fun record => record.names.map fun file =>
        (file.parent, file.name)).Nodup ∧
      ∃ start final, fstreeStart = .ok start ∧
        createInodes [] records start = .ok final ∧
          ¬ (directoryNames final).Nodup) := by
  intro records
  have unique :
      (records.flatMap fun record => record.names.map fun file =>
        (file.parent, file.name)).Nodup := by
    decide +kernel
  obtain ⟨start, final, started, done⟩ :=
    createInodes_returns
      (by decide +kernel : ∀ record ∈ records,
        record.links [] = .ok (record.linkList []))
      (by decide +kernel)
  refine ⟨unique, start, final, started, done, ?_⟩
  rw [(createInodes_directoryNames started done).nodup_iff]
  decide +kernel

end Ntfs2Btrfs
