import MotorRv.Wal.FallbackImages

/-!
# The names of the files

A segment is named by its partition and its first LSN, an image by its partition and the LSN it was
taken at. `recover` reads the LSN back out of the name, and tells the files of a partition by the
beginning and the end of their names: it finds those files and no others.

A number is written in sixteen hexadecimal digits and read by `strtoull`, which takes the longest
prefix of digits it can; the dot behind the digits ends it (`strtoull16_hex16`). Partitions are
written in decimal without padding, so that one prefix could begin another: that an underscore
follows the number keeps them apart (`segPrefix_isPrefix`, `snapPrefix_isPrefix`).

`files_found` is about a directory of any mixture of partitions, kinds and LSNs. A path has a
directory in front, and what is listed is the entry behind the last slash; that the two are the same
name is `fileName_of_formatSegmentPath`.
-/

namespace MotorRv

open Lib

/-! ### Formatting -/

/-- `%016llx`. -/
def hex16 (v : ℕ) : List Char := (Nat.toDigits 16 v).leftpad 16 '0'

/-- The name of a segment, in its directory. -/
def segmentName (part firstLsn : ℕ) : List Char :=
  segPrefix part ++ (hex16 firstLsn ++ ['.', 'w', 'a', 'l'])

/-- `format_segment_path`: the path, if it fits. -/
def formatSegmentPath (cap : ℕ) (dir : List Char) (part firstLsn : ℕ) : Option (List Char) :=
  let path := dir ++ '/' :: segmentName part firstLsn
  if path.length < cap then some path else none

/-- The name of a file, as an entry of its directory has it: what stands behind the last slash. -/
def fileName (path : List Char) : List Char := (path.reverse.takeWhile fun c => c != '/').reverse

/-- The name of an image, in its directory. -/
def snapshotName (part at' : ℕ) : List Char :=
  snapPrefix part ++ (hex16 at' ++ ['.', 'i', 'm', 'g'])

example : segmentName 3 31 = ['p', '3', '_', '0', '0', '0', '0', '0', '0', '0', '0', '0', '0', '0',
  '0', '0', '0', '1', 'f', '.', 'w', 'a', 'l'] := by decide

inductive FileKind
  | segment
  | image
  deriving DecidableEq

/-- A file as the writer names it. -/
structure NamedFile where
  kind : FileKind
  part : ℕ
  lsn : ℕ
  content : Option Bytes
  deriving DecidableEq

def NamedFile.name (f : NamedFile) : List Char :=
  match f.kind with
  | .segment => segmentName f.part f.lsn
  | .image => snapshotName f.part f.lsn

def NamedFile.entry (f : NamedFile) : DirEntry := ⟨f.name, f.content⟩

/-! ### Reading a number back -/

section Digits

/-- The number that digits stand for. -/
def digitsValue (b : ℕ) (v : ℕ) (l : List Char) : ℕ :=
  l.foldl (fun v c => b * v + (hexDigit c).getD 0) v

/-- A digit that is written is read as the digit. -/
theorem hexDigit_digitChar {d : ℕ} (h : d < 16) : hexDigit (Nat.digitChar d) = some d := by
  have hall : ∀ d < 16, hexDigit (Nat.digitChar d) = some d := by decide
  exact hall d h

/-- A number that is written is read as the number. -/
theorem digitsValue_toDigits {b : ℕ} (hb : 1 < b) (hb' : b ≤ 16) (n : ℕ) :
    digitsValue b 0 (Nat.toDigits b n) = n := by
  induction n using Nat.strong_induction_on with
  | _ n ih =>
    rw [Nat.toDigits_eq_if hb]
    split_ifs with h
    · simp [digitsValue, hexDigit_digitChar (h.trans_le hb')]
    · have hlt : n / b < n := Nat.div_lt_self (by omega) hb
      have hmod : n % b < 16 := (Nat.mod_lt n (by omega)).trans_le hb'
      rw [digitsValue, List.foldl_append]
      have := ih (n / b) hlt
      rw [digitsValue] at this
      rw [this, List.foldl_cons, List.foldl_nil, hexDigit_digitChar hmod, Option.getD_some]
      exact Nat.div_add_mod n b

/-- A number is written in digits only. -/
theorem isSome_hexDigit_of_mem {b : ℕ} (hb : 1 < b) (hb' : b ≤ 16) (n : ℕ) :
    ∀ c ∈ Nat.toDigits b n, (hexDigit c).isSome = true := by
  induction n using Nat.strong_induction_on with
  | _ n ih =>
    rw [Nat.toDigits_eq_if hb]
    split_ifs with h
    · simp [hexDigit_digitChar (h.trans_le hb')]
    · have hlt : n / b < n := Nat.div_lt_self (by omega) hb
      have hmod : n % b < 16 := (Nat.mod_lt n (by omega)).trans_le hb'
      intro c hc
      obtain hc | hc := List.mem_append.mp hc
      · exact ih _ hlt c hc
      · obtain rfl := List.mem_singleton.mp hc
        rw [hexDigit_digitChar hmod]
        rfl

/-- The digits are read up to the first character that is none. -/
theorem hexDigits_append {l : List Char} (hl : ∀ c ∈ l, (hexDigit c).isSome = true) {c : Char}
    (hc : hexDigit c = none) (v : ℕ) (rest : List Char) :
    hexDigits v (l ++ c :: rest) = (digitsValue 16 v l, c :: rest) := by
  induction l generalizing v with
  | nil => simp [hexDigits, hc, digitsValue]
  | cons d l ih =>
    obtain ⟨hd, hl⟩ := List.forall_mem_cons.mp hl
    obtain ⟨x, hx⟩ := Option.isSome_iff_exists.mp hd
    rw [List.cons_append, hexDigits, hx]
    dsimp only
    rw [ih hl, digitsValue, digitsValue, List.foldl_cons, hx, Option.getD_some]

end Digits

section Hex

variable {v : ℕ}

/-- The padded number consists of digits. -/
theorem hexDigit_of_mem_hex16 : ∀ c ∈ hex16 v, (hexDigit c).isSome = true := by
  intro c hc
  obtain hc | hc := List.mem_append.mp hc
  · obtain rfl := List.eq_of_mem_replicate hc
    rfl
  · exact isSome_hexDigit_of_mem (by decide) le_rfl v c hc

/-- Padding does not change the number. -/
theorem digitsValue_hex16 : digitsValue 16 0 (hex16 v) = v := by
  have hzeros : ∀ n, digitsValue 16 0 (List.replicate n '0') = 0 := by
    intro n
    induction n with
    | zero => rfl
    | succ n ih => exact ih
  rw [hex16, List.leftpad, digitsValue, List.foldl_append]
  have := hzeros (16 - (Nat.toDigits 16 v).length)
  rw [digitsValue] at this
  rw [this]
  exact digitsValue_toDigits (by decide) le_rfl v

/-- The padded number has sixteen digits. -/
theorem length_hex16 (hv : v < 2 ^ 64) : (hex16 v).length = 16 := by
  have hle : (Nat.toDigits 16 v).length ≤ 16 :=
    (Nat.length_toDigits_le_iff (by decide) (by decide)).mpr (hv.trans_eq (by norm_num))
  rw [hex16, List.length_leftpad, Nat.max_eq_left hle]

/-- A digit of base 16 is no blank, no sign, no `x` and no dot. -/
theorem of_isSome_hexDigit {c : Char} (h : (hexDigit c).isSome = true) :
    isSpace c = false ∧ c ≠ '-' ∧ c ≠ '+' ∧ c ≠ 'x' ∧ c ≠ 'X' ∧ c ≠ '.' := by
  refine ⟨?_, ?_, ?_, ?_, ?_, ?_⟩
  · have hne : c ≠ ' ' := by
      rintro rfl
      cases h
    have hge : 48 ≤ c.toNat := by
      by_contra hlt
      have hnone : hexDigit c = none := by
        rw [hexDigit, if_neg (by omega), if_neg (by omega), if_neg (by omega)]
      rw [hnone] at h
      cases h
    have hgt : ¬ c.toNat ≤ 13 := by omega
    simp [isSpace, hne, hgt]
  all_goals
    rintro rfl
    cases h

/-- **The number in a name.** What `strtoull` reads where the digits end at a dot. -/
theorem strtoull16_hex16 (hv : v < 2 ^ 64) (ext : List Char) :
    strtoull16 (hex16 v ++ '.' :: ext) = (v, '.' :: ext) := by
  have hdigits := hexDigit_of_mem_hex16 (v := v)
  have hvalue := digitsValue_hex16 (v := v)
  have hlen := length_hex16 hv
  -- the first two of the sixteen digits rule out blanks, a sign and `0x`
  obtain ⟨c, d, l, hl⟩ : ∃ c d l, hex16 v = c :: d :: l := by
    rcases hh : hex16 v with _ | ⟨c, _ | ⟨d, l⟩⟩
    · simp [hh] at hlen
    · simp [hh] at hlen
    · exact ⟨c, d, l, rfl⟩
  rw [hl] at hdigits hvalue ⊢
  obtain ⟨hc, hd, -⟩ : (hexDigit c).isSome = true ∧ (hexDigit d).isSome = true ∧ True :=
    ⟨hdigits c List.mem_cons_self, hdigits d (List.mem_cons_of_mem _ List.mem_cons_self), trivial⟩
  obtain ⟨hspace, hminus, hplus, -, -, -⟩ := of_isSome_hexDigit hc
  obtain ⟨-, -, -, hx, hX, -⟩ := of_isSome_hexDigit hd
  have hdrop : (c :: d :: l ++ '.' :: ext).dropWhile isSpace = c :: d :: l ++ '.' :: ext := by
    rw [List.cons_append, List.dropWhile_cons_of_neg (by simp [hspace])]
  have hsign : splitSign (c :: d :: l ++ '.' :: ext) = (false, c :: d :: l ++ '.' :: ext) := by
    simp only [List.cons_append]
    unfold splitSign
    split
    · rename_i heq
      exact absurd (List.cons.inj heq).1 hminus
    · rename_i heq
      exact absurd (List.cons.inj heq).1 hplus
    · rfl
  have hdropped : dropHexPrefix (c :: d :: l ++ '.' :: ext) = c :: d :: l ++ '.' :: ext := by
    simp only [List.cons_append]
    unfold dropHexPrefix
    split
    · rename_i heq
      obtain ⟨-, heq'⟩ := List.cons.inj heq
      obtain ⟨rfl, -⟩ := List.cons.inj heq'
      rw [if_neg (by tauto), heq]
    · rfl
  -- the dot is no digit, so the reading ends there
  have hread := hexDigits_append hdigits (show hexDigit '.' = none from rfl) 0 ext
  rw [hvalue] at hread
  obtain ⟨x, hx'⟩ := Option.isSome_iff_exists.mp hc
  unfold strtoull16
  rw [hdrop, hsign]
  dsimp only
  rw [hdropped, hread]
  simp only [List.cons_append, List.head?_cons, Option.bind_some, hx', Option.isNone_some,
    Bool.false_eq_true, if_false]
  rw [if_neg (by omega)]

end Hex

/-! ### Telling the names apart -/

section Names

variable {part q lsn : ℕ}

/-- Numbers that are written alike are the same. -/
theorem toDigits_injective : Function.Injective (Nat.toDigits 10) := fun m n h => by
  rw [← digitsValue_toDigits (b := 10) (by decide) (by decide) m, h,
    digitsValue_toDigits (by decide) (by decide)]

/-- No name of a segment has a slash in it. -/
theorem slash_notMem_segmentName : '/' ∉ segmentName part lsn := by
  have hnot : ∀ c : Char, (hexDigit c).isSome = true → c ≠ '/' := by
    rintro c hc rfl
    exact absurd hc (by decide)
  rw [segmentName, segPrefix]
  simp only [List.mem_append, List.mem_cons, List.not_mem_nil, or_false, not_or]
  exact ⟨⟨by decide, fun h =>
    hnot _ (isSome_hexDigit_of_mem (b := 10) (by decide) (by decide) part _ h)
    rfl, by decide⟩, fun h => hnot _ (hexDigit_of_mem_hex16 _ h) rfl, by decide⟩

/-- The path that is formatted names the file as the entry of its directory does. -/
theorem fileName_of_formatSegmentPath {cap : ℕ} {dir path : List Char}
    (h : formatSegmentPath cap dir part lsn = some path) :
    fileName path = segmentName part lsn := by
  rw [formatSegmentPath] at h
  split_ifs at h
  obtain rfl := Option.some.inj h
  rw [fileName, List.reverse_append, List.reverse_cons, List.append_assoc,
    List.takeWhile_append_of_pos, List.singleton_append, List.takeWhile_cons_of_neg (by simp),
    List.append_nil, List.reverse_reverse]
  intro c hc
  refine bne_iff_ne.mpr ?_
  rintro rfl
  exact slash_notMem_segmentName (List.mem_reverse.mp hc)

/-- The name of a file begins as that of a partition exactly when it is of that partition. -/
theorem segPrefix_isPrefix {rest : List Char} : segPrefix q <+: segPrefix part ++ rest ↔
    q = part := by
  constructor
  · rintro ⟨more, h⟩
    have hnot : ∀ n, ∀ c ∈ Nat.toDigits 10 n, decide (c ≠ '_') = true := fun n c hc =>
      decide_eq_true fun heq => Nat.underscore_not_in_toDigits (heq ▸ hc)
    -- the digits are what stands before the underscore
    have hcut : ∀ n l, (Nat.toDigits 10 n ++ '_' :: l).takeWhile (· ≠ '_') = Nat.toDigits 10 n := by
      intro n l
      rw [List.takeWhile_append_of_pos (hnot n), List.takeWhile_cons_of_neg (by simp),
        List.append_nil]
    have heq : Nat.toDigits 10 q ++ '_' :: more = Nat.toDigits 10 part ++ '_' :: rest := by
      simpa [segPrefix] using h
    exact toDigits_injective (by rw [← hcut q more, heq, hcut])
  · rintro rfl
    exact List.prefix_append _ _

/-- The prefix of the images of one partition is not that of another. -/
theorem snapPrefix_isPrefix {rest : List Char} :
    snapPrefix q <+: snapPrefix part ++ rest ↔ q = part := by
  rw [snapPrefix, snapPrefix, List.append_assoc, List.prefix_append_right_inj, segPrefix_isPrefix]

/-- An image is not taken for a segment. -/
theorem not_segPrefix_isPrefix {rest : List Char} : ¬ segPrefix q <+: snapPrefix part ++ rest := by
  rintro ⟨more, h⟩
  simp [segPrefix, snapPrefix] at h

/-- A segment is not taken for an image. -/
theorem not_snapPrefix_isPrefix {rest : List Char} : ¬ snapPrefix q <+: segPrefix part ++ rest := by
  rintro ⟨more, h⟩
  simp [segPrefix, snapPrefix] at h

/-- A name with the prefix, sixteen digits and the suffix is listed with its number. -/
theorem listaArquivos_hex16 {pre ext : List Char} {content : Option Bytes} (hlsn : lsn < 2 ^ 64) :
    listaArquivos [⟨pre ++ (hex16 lsn ++ '.' :: ext), content⟩] pre ('.' :: ext) =
      [⟨lsn, ⟨pre ++ (hex16 lsn ++ '.' :: ext), content⟩⟩] := by
  have hlen := length_hex16 hlsn
  have hpre : pre.isPrefixOf (pre ++ (hex16 lsn ++ '.' :: ext)) = true :=
    List.isPrefixOf_iff_prefix.mpr (List.prefix_append _ _)
  have hsuf : ('.' :: ext).isSuffixOf (pre ++ (hex16 lsn ++ '.' :: ext)) = true :=
    List.isSuffixOf_iff_suffix.mpr ((List.suffix_append _ _).trans (List.suffix_append _ _))
  have hlong : ¬ (pre ++ (hex16 lsn ++ '.' :: ext)).length ≤ pre.length + ('.' :: ext).length := by
    simp only [List.length_append, List.length_cons, hlen]
    omega
  rw [listaArquivos, List.filterMap_cons, List.filterMap_nil]
  dsimp only
  rw [if_neg hlong, if_neg (not_not.mpr hpre), if_neg (not_not.mpr hsuf), List.drop_left,
    strtoull16_hex16 hlsn]
  rfl

/-- A name without the prefix is not listed. -/
theorem listaArquivos_of_not_prefix {pre suf : List Char} {ent : DirEntry}
    (h : ¬ pre <+: ent.name) :
    listaArquivos [ent] pre suf = [] := by
  rw [listaArquivos, List.filterMap_cons, List.filterMap_nil]
  dsimp only
  have hpre : ¬ pre.isPrefixOf ent.name = true := fun hp => h (List.isPrefixOf_iff_prefix.mp hp)
  split_ifs
  · rfl
  · rfl

end Names

/-! ### Finding the files -/

/-- The files of one kind and one partition, each under its LSN. -/
def filesOf (kind : FileKind) (part : ℕ) (files : List NamedFile) : List FileItem :=
  (files.filter fun f => decide (f.kind = kind) && decide (f.part = part)).map fun f =>
    ⟨f.lsn, f.entry⟩

section Files

variable {files : List NamedFile} {part : ℕ}

/-- Listing file by file. -/
theorem listaArquivos_map {pre suf : List Char} {kind : FileKind}
    (hone : ∀ f ∈ files, listaArquivos [f.entry] pre suf = filesOf kind part [f]) :
    listaArquivos (files.map NamedFile.entry) pre suf = filesOf kind part files := by
  induction files with
  | nil => rfl
  | cons f files ih =>
    obtain ⟨hf, hfiles⟩ := List.forall_mem_cons.mp hone
    have hlist : listaArquivos ((f :: files).map NamedFile.entry) pre suf =
        listaArquivos [f.entry] pre suf ++ listaArquivos (files.map NamedFile.entry) pre suf :=
      List.filterMap_append (l := [f.entry])
    have hfiles' : filesOf kind part (f :: files) =
      filesOf kind part [f] ++ filesOf kind part files := by
      have hsplit : f :: files = [f] ++ files := rfl
      rw [filesOf, hsplit, List.filter_append, List.map_append]
      rfl
    rw [hlist, hf, ih hfiles, hfiles']

/-- The segments of the partition are found, in the order of their LSNs. -/
theorem listaArquivos_segments (hlsn : ∀ f ∈ files, f.lsn < 2 ^ 64) :
    listaArquivos (files.map NamedFile.entry) (segPrefix part) ['.', 'w', 'a', 'l'] =
      filesOf .segment part files := by
  refine listaArquivos_map fun f hf => ?_
  obtain ⟨kind, p, lsn, content⟩ := f
  have hlt : lsn < 2 ^ 64 := hlsn _ hf
  cases kind with
  | segment =>
    by_cases hp : part = p
    · subst hp
      have hkept : filesOf .segment part [⟨.segment, part, lsn, content⟩] =
          [⟨lsn, ⟨segmentName part lsn, content⟩⟩] := by
        rw [filesOf, List.filter_cons_of_pos (by simp)]
        rfl
      rw [hkept]
      exact listaArquivos_hex16 hlt
    · have hdropped : filesOf .segment part [⟨.segment, p, lsn, content⟩] = [] := by
        rw [filesOf, List.filter_cons_of_neg (by simpa using Ne.symm hp)]
        rfl
      rw [hdropped]
      exact listaArquivos_of_not_prefix (mt segPrefix_isPrefix.mp hp)
  | image => exact listaArquivos_of_not_prefix not_segPrefix_isPrefix

/-- The images of the partition are found, in the order of their LSNs. -/
theorem listaArquivos_images (hlsn : ∀ f ∈ files, f.lsn < 2 ^ 64) :
    listaArquivos (files.map NamedFile.entry) (snapPrefix part) ['.', 'i', 'm', 'g'] =
      filesOf .image part files := by
  refine listaArquivos_map fun f hf => ?_
  obtain ⟨kind, p, lsn, content⟩ := f
  have hlt : lsn < 2 ^ 64 := hlsn _ hf
  cases kind with
  | segment => exact listaArquivos_of_not_prefix not_snapPrefix_isPrefix
  | image =>
    by_cases hp : part = p
    · subst hp
      have hkept : filesOf .image part [⟨.image, part, lsn, content⟩] =
          [⟨lsn, ⟨snapshotName part lsn, content⟩⟩] := by
        rw [filesOf, List.filter_cons_of_pos (by simp)]
        rfl
      rw [hkept]
      exact listaArquivos_hex16 hlt
    · have hdropped : filesOf .image part [⟨.image, p, lsn, content⟩] = [] := by
        rw [filesOf, List.filter_cons_of_neg (by simpa using Ne.symm hp)]
        rfl
      rw [hdropped]
      exact listaArquivos_of_not_prefix (mt snapPrefix_isPrefix.mp hp)

/-- **Recovery finds its files.** In a directory of segments and images named by the writer, of any
partitions, recovery of a partition lists exactly its own segments, each under the LSN it was
created with and oldest first, and exactly its own images, each under the LSN it was taken at and
newest first. The path under which a segment is created has as its last part the name that it is
listed by. -/
theorem files_found (files : List NamedFile) (hlsn : ∀ f ∈ files, f.lsn < 2 ^ 64) (part : ℕ) :
    (segs (files.map NamedFile.entry) part).Perm (filesOf .segment part files) ∧
    (segs (files.map NamedFile.entry) part).Pairwise (fun a b => a.lsn ≤ b.lsn) ∧
    (snaps (files.map NamedFile.entry) part).Perm (filesOf .image part files) ∧
    (snaps (files.map NamedFile.entry) part).Pairwise (fun a b => b.lsn ≤ a.lsn) ∧
    ∀ f ∈ files, f.kind = .segment → ∀ cap dir path,
      formatSegmentPath cap dir f.part f.lsn = some path → f.entry.name = fileName path := by
  have : Std.Total fun a b : FileItem => a.lsn ≤ b.lsn := ⟨fun a b => le_total a.lsn b.lsn⟩
  have : IsTrans FileItem fun a b => a.lsn ≤ b.lsn := ⟨fun _ _ _ h h' => h.trans h'⟩
  have : Std.Total fun a b : FileItem => b.lsn ≤ a.lsn := ⟨fun a b => le_total b.lsn a.lsn⟩
  have : IsTrans FileItem fun a b => b.lsn ≤ a.lsn := ⟨fun _ _ _ h h' => h'.trans h⟩
  rw [segs, snaps, listaArquivos_segments hlsn, listaArquivos_images hlsn]
  refine ⟨List.perm_insertionSort _ _, List.pairwise_insertionSort _ _, List.perm_insertionSort _ _,
    List.pairwise_insertionSort _ _, fun f _ hkind cap dir path hpath => ?_⟩
  rw [fileName_of_formatSegmentPath hpath, NamedFile.entry, NamedFile.name, hkind]

/-- Two partitions share a directory. -/
theorem files_found_shared :
    (segs ([⟨.segment, 1, 7, none⟩, ⟨.segment, 11, 3, none⟩, ⟨.image, 1, 5, none⟩,
      ⟨.segment, 1, 2, none⟩].map NamedFile.entry) 1).Perm
      [⟨7, ⟨segmentName 1 7, none⟩⟩, ⟨2, ⟨segmentName 1 2, none⟩⟩] :=
  (files_found [⟨.segment, 1, 7, none⟩, ⟨.segment, 11, 3, none⟩, ⟨.image, 1, 5, none⟩,
    ⟨.segment, 1, 2, none⟩] (by decide) 1).1

end Files

end MotorRv
