import FrostyOS.ArchiveTree

/-! # Archives in memory

What a ustar archive of files and folders is, and what the loader reads from its headers. -/
namespace InitRAMFS

open Errno TempFS VFS MachineWord List
open TempFileSystem (Name Disk pathSeparator)

def digit (d : ℕ) : UInt8 := UInt8.ofNat (48 + d)

def octalValue (ds : List ℕ) (num : ℕ) : ℕ := ds.foldl (fun n d => n * 8 + d) num

def IsOctal (bytes : Bytes) (value : ℕ) : Prop :=
  ∃ ds rest, bytes = ds.map digit ++ 0 :: rest ∧ (∀ d ∈ ds, d < 8) ∧ octalValue ds 0 = value

/-- The header at `o` and the contents behind it are those of the entry. -/
structure Entry.At (e : Entry) (mem : Memory) (o : ℕ) : Prop where
  filepath : ∃ n, field mem o 100 = pathBytes e.path ++ replicate n 0
  mode : IsOctal (field mem (o + 100) 8) e.mode
  uid : IsOctal (field mem (o + 108) 8) e.uid
  gid : IsOctal (field mem (o + 116) 8) e.gid
  size : IsOctal (field mem (o + 124) 12) e.data.length
  typeFlag : mem (o + 156) = if e.isFolder then 53 else 48
  magic : hasMagic mem o = true
  data : field mem (o + 512) e.data.length = e.data

/-- From `o` on there are the entries, each at a multiple of 512 behind the last one and
within the size, and then no further header. -/
def Archive (mem : Memory) (size : ℕ) : List Entry → ℕ → Prop
  | [], o => ¬ (hasMagic mem o = true ∧ o < size)
  | e :: es, o => e.At mem o ∧ o + 512 + alignUp e.data.length 512 ≤ size ∧
      Archive mem size es (o + 512 + alignUp e.data.length 512)

theorem digit_toNat {d : ℕ} (h : d < 8) : (digit d).toNat = 48 + d := by
  rw [digit, UInt8.toNat_ofNat']
  omega

theorem digit_ne_zero {d : ℕ} (h : d < 8) : digit d ≠ 0 := by
  intro hzero
  have hnat := digit_toNat h
  rw [hzero] at hnat
  have : (0 : UInt8).toNat = 0 := rfl
  omega

theorem asciiOct_digits {ds} (hds : ∀ d ∈ ds, d < 8) (rest : Bytes) {num : ℕ}
    (hnum : (num + 1) * 8 ^ ds.length ≤ 2 ^ 64) :
    asciiOctToUInt (ds.map digit ++ 0 :: rest) num = octalValue ds num := by
  induction ds generalizing num with
  | nil => simp [asciiOctToUInt, octalValue]
  | cons d ds ih =>
    have hd : d < 8 := hds d mem_cons_self
    have hpow : 0 < 8 ^ ds.length := Nat.pow_pos (by decide)
    rw [length_cons, pow_succ, mul_comm (8 ^ ds.length), ← mul_assoc] at hnum
    have hnext : (num * 8 + d + 1) * 8 ^ ds.length ≤ 2 ^ 64 :=
      Nat.le_trans (Nat.mul_le_mul_right _ (by omega)) hnum
    have hbound : num * 8 + d + 1 ≤ 2 ^ 64 := Nat.le_trans (Nat.le_mul_of_pos_right _ hpow) hnext
    have hsigned : signedChar (digit d) = 48 + d := by
      rw [signedChar, digit_toNat hd, if_pos (by omega)]
      omega
    have hstep : (((num * 8 : ℤ) + (signedChar (digit d) - 48)) % (2 ^ 64 : ℕ)).toNat =
        num * 8 + d := by
      rw [hsigned]
      omega
    rw [map_cons, cons_append, asciiOctToUInt, if_neg (digit_ne_zero hd), hstep,
      ih (fun x hx => hds x (mem_cons_of_mem d hx)) hnext]
    rfl

theorem octalValue_lt {ds} (hds : ∀ d ∈ ds, d < 8) (num : ℕ) :
    octalValue ds num < (num + 1) * 8 ^ ds.length := by
  induction ds generalizing num with
  | nil => simp [octalValue]
  | cons d ds ih =>
    have hd : d < 8 := hds d mem_cons_self
    have hrest := ih (fun x hx => hds x (mem_cons_of_mem d hx)) (num * 8 + d)
    rw [length_cons, pow_succ, mul_comm (8 ^ ds.length), ← mul_assoc]
    exact Nat.lt_of_lt_of_le hrest (Nat.mul_le_mul_right _ (by omega))

theorem IsOctal.value {bytes} {value : ℕ} (h : IsOctal bytes value) (hlen : bytes.length ≤ 12) :
    asciiOctToUInt bytes 0 = value ∧ value < 2 ^ 33 := by
  obtain ⟨ds, rest, rfl, hds, rfl⟩ := h
  rw [length_append, length_map, length_cons] at hlen
  have hpow : 8 ^ ds.length ≤ 8 ^ 11 := Nat.pow_le_pow_right (by decide) (by omega)
  refine ⟨asciiOct_digits hds rest (by omega), ?_⟩
  have hlt := octalValue_lt hds 0
  omega

theorem field_length (mem : Memory) (o n : ℕ) : (field mem o n).length = n := by
  rw [field, length_map, length_range]

theorem pathBytes_singleton (w : Bytes) : pathBytes [w] = w := by
  simp [pathBytes, intercalate]

theorem pathBytes_append {ps} (hps : ps ≠ []) (w : Bytes) :
    pathBytes (ps ++ [w]) = pathBytes ps ++ separator :: w := by
  induction ps with
  | nil => exact absurd rfl hps
  | cons p ps ih =>
    cases ps with
    | nil => simp [pathBytes, intercalate]
    | cons q ps =>
      have hrest := ih (cons_ne_nil q ps)
      simp only [pathBytes, intercalate, cons_append, intersperse_cons_cons,
        flatten_cons] at hrest ⊢
      rw [hrest]
      simp

theorem toName_pathBytes (ps : List Bytes) :
    toName (pathBytes ps) = Disk.joined (ps.map toName) := by
  induction ps with
  | nil => rfl
  | cons p ps ih =>
    cases ps with
    | nil => simp [pathBytes, Disk.joined, intercalate]
    | cons q ps =>
      simp only [pathBytes, Disk.joined, intercalate, map_cons,
        intersperse_cons_cons, flatten_cons, toName, map_append] at ih ⊢
      rw [ih]
      simp [toChar_separator]

theorem no_zero_pathBytes {ps} (h : ∀ w ∈ ps, IsName w) : 0 ∉ pathBytes ps := by
  induction ps with
  | nil => exact not_mem_nil
  | cons p ps ih =>
    have hp := (h p mem_cons_self).no_zero
    cases ps with
    | nil =>
      rw [pathBytes_singleton]
      exact hp
    | cons q ps =>
      have hrest := ih fun w hw => h w (mem_cons_of_mem p hw)
      have hsep : (0 : UInt8) ≠ separator := by decide
      simp only [pathBytes, intercalate, intersperse_cons_cons, flatten_cons,
        mem_append, mem_singleton, not_or] at hrest ⊢
      exact ⟨hp, hsep, hrest⟩

theorem cString_append_zeros {b} (h : 0 ∉ b) (n : ℕ) :
    cString (b ++ replicate n 0) = toName b := by
  have htake : (b ++ replicate n 0).takeWhile (fun c => c ≠ 0) = b := by
    rw [takeWhile_append_of_pos]
    · cases n <;> simp [replicate_succ]
    · intro c hc
      simp only [ne_eq, decide_not, Bool.not_eq_true', decide_eq_false_iff_not]
      rintro rfl
      exact h hc
  rw [cString, htake, toName]

theorem cString_of_no_zero {b} (h : 0 ∉ b) : cString b = toName b := by
  have hstring := cString_append_zeros h 0
  rwa [replicate_zero, append_nil] at hstring

theorem lastSeparator_name {w} (hsep : separator ∉ w) (n i : ℕ) (last : Option ℕ) :
    lastSeparator (w ++ replicate n 0) i last = last := by
  induction w generalizing i with
  | nil =>
    match n with
    | 0 => rfl
    | 1 => rfl
    | n + 2 => simp [replicate_succ, lastSeparator]
  | cons c w ih =>
    rw [mem_cons, not_or] at hsep
    cases hrest : w ++ replicate n 0 with
    | nil =>
      rw [cons_append, hrest]
      rfl
    | cons next rest =>
      rw [cons_append, hrest, lastSeparator]
      split
      · rw [if_neg (fun h => hsep.1 h.1.symm), ← hrest]
        exact ih hsep.2 (i + 1)
      · rfl

theorem lastSeparator_path {ps w} (hps : 0 ∉ ps) (hne : w ≠ []) (hzero : 0 ∉ w)
    (hsep : separator ∉ w) (n i : ℕ) (last : Option ℕ) (hlen : i + ps.length < 99) :
    lastSeparator (ps ++ separator :: w ++ replicate n 0) i last = some (i + ps.length) := by
  induction ps generalizing i last with
  | nil =>
    obtain ⟨c, w, rfl⟩ := exists_cons_of_ne_nil hne
    have hc : c ≠ 0 := by
      rintro rfl
      exact hzero mem_cons_self
    have hsepzero : separator ≠ 0 := by decide
    rw [length_nil] at hlen
    simp only [nil_append, cons_append]
    rw [lastSeparator, if_pos ⟨hlen, hsepzero⟩, if_pos ⟨rfl, hc⟩]
    exact lastSeparator_name hsep n (i + 1) (some i)
  | cons c ps ih =>
    rw [mem_cons, not_or] at hps
    rw [length_cons] at hlen
    obtain ⟨next, rest, hrest⟩ : ∃ next rest,
        ps ++ separator :: w ++ replicate n 0 = next :: rest :=
      exists_cons_of_ne_nil (by simp)
    have hstep := ih hps.2 (i + 1) (if c = separator ∧ next ≠ 0 then some i else last) (by omega)
    rw [cons_append, cons_append, hrest, lastSeparator,
      if_pos ⟨by omega, Ne.symm hps.1⟩, ← hrest, hstep, length_cons]
    congr 1
    omega

def Entry.parentName (e : Entry) : Name :=
  if e.parent = [] then [pathSeparator] else Disk.joined (e.parent.map toName)

structure Entry.Read (e : Entry) (h : Header) : Prop where
  size : h.size = e.data.length
  size_lt : e.data.length < 2 ^ 33
  privilege : h.privilege = e.privilege
  typeFlag : h.typeFlag = if e.isFolder then 53 else 48
  path : cString h.filepath = Disk.joined e.names
  name : h.name = toName e.name
  parent : h.parent = e.parentName
  terminated : h.filepath.getD 99 0 = 0

theorem lastSeparator_of_path {path} (hne : path ≠ []) (hnames : ∀ w ∈ path, IsName w)
    (hshort : (pathBytes path).length < 99) (n : ℕ) :
    lastSeparator (pathBytes path ++ replicate n 0) 0 none =
      if path.dropLast = [] then none else some (pathBytes path.dropLast).length := by
  have hlast : IsName (path.getLast hne) := hnames _ (getLast_mem hne)
  have hsplit := dropLast_append_getLast hne
  split
  · next hroot =>
    rw [hroot, nil_append] at hsplit
    rw [← hsplit, pathBytes_singleton]
    exact lastSeparator_name hlast.no_separator n 0 none
  next hroot =>
  have hbytes : pathBytes path =
      pathBytes path.dropLast ++ separator :: path.getLast hne := by
    rw [← pathBytes_append hroot, hsplit]
  have hzero : 0 ∉ pathBytes path.dropLast :=
    no_zero_pathBytes fun w hw => hnames w (dropLast_subset _ hw)
  rw [hbytes, length_append, length_cons] at hshort
  rw [hbytes, lastSeparator_path hzero hlast.ne_nil hlast.no_zero hlast.no_separator n 0 none
    (by omega), zero_add]

theorem Entry.pathBytes_eq {e : Entry} (hne : e.path ≠ []) (hroot : e.parent ≠ []) :
    pathBytes e.path = pathBytes e.parent ++ separator :: e.name := by
  rw [← pathBytes_append hroot, ← e.path_eq hne]

namespace Entry.At

variable {e : Entry} {mem : Memory} {o : ℕ}

section

variable (h : e.At mem o)

include h

theorem read_path (hnames : ∀ w ∈ e.path, IsName w) :
    cString (readHeader mem o).filepath = toName (pathBytes e.path) := by
  obtain ⟨n, hfield⟩ := h.filepath
  change cString (field mem o 100) = _
  rw [hfield]
  exact cString_append_zeros (no_zero_pathBytes hnames) n

theorem read_terminated (hshort : (pathBytes e.path).length < 99) :
    (readHeader mem o).filepath.getD 99 0 = 0 := by
  obtain ⟨n, hfield⟩ := h.filepath
  change (field mem o 100).getD 99 0 = 0
  rw [hfield, getD_eq_getElem?_getD, getElem?_append_right (by omega), getElem?_replicate]
  split <;> rfl

variable (hne : e.path ≠ []) (hnames : ∀ w ∈ e.path, IsName w)
  (hshort : (pathBytes e.path).length < 99)

include hne hnames hshort

theorem lastSeparator_eq : lastSeparator (readHeader mem o).filepath 0 none =
      if e.parent = [] then none else some (pathBytes e.parent).length := by
  obtain ⟨n, hfield⟩ := h.filepath
  change lastSeparator (field mem o 100) 0 none = _
  rw [hfield]
  exact lastSeparator_of_path hne hnames hshort n

theorem read_name : (readHeader mem o).name = toName e.name := by
  have hsep := h.lastSeparator_eq hne hnames hshort
  by_cases hroot : e.parent = []
  · have hsingle := e.path_eq hne
    rw [hroot, nil_append] at hsingle
    rw [if_pos hroot] at hsep
    rw [Header.name_root hsep, h.read_path hnames, hsingle, pathBytes_singleton]
  obtain ⟨n, hfield⟩ := h.filepath
  have hdrop : (pathBytes e.parent ++ separator :: e.name ++ replicate n 0).drop
      ((pathBytes e.parent).length + 1) = e.name ++ replicate n 0 := by
    rw [append_assoc, drop_append]
    simp
  rw [if_neg hroot] at hsep
  rw [Header.name_at hsep]
  change cString ((field mem o 100).drop _) = _
  rw [hfield, e.pathBytes_eq hne hroot, hdrop]
  exact cString_append_zeros (e.isName hne hnames).no_zero n

theorem read_parent : (readHeader mem o).parent = e.parentName := by
  have hsep := h.lastSeparator_eq hne hnames hshort
  by_cases hroot : e.parent = []
  · rw [if_pos hroot] at hsep
    rw [Header.parent_root hsep, Entry.parentName, if_pos hroot]
  obtain ⟨n, hfield⟩ := h.filepath
  have hzero : 0 ∉ pathBytes e.parent :=
    no_zero_pathBytes fun w hw => hnames w (dropLast_subset _ hw)
  rw [if_neg hroot] at hsep
  rw [Header.parent_at hsep, Entry.parentName, if_neg hroot]
  change cString ((field mem o 100).take _) = _
  rw [hfield, e.pathBytes_eq hne hroot, append_assoc, take_left,
    cString_of_no_zero hzero, toName_pathBytes]

theorem read : e.Read (readHeader mem o) := by
  have hsize := h.size.value (Nat.le_of_eq (field_length _ _ _))
  have hmode := h.mode.value (by rw [field_length]; decide)
  have huid := h.uid.value (by rw [field_length]; decide)
  have hgid := h.gid.value (by rw [field_length]; decide)
  constructor
  · exact hsize.1
  · exact hsize.2
  · change (⟨_ % _, _ % _, _ % _⟩ : FilePrivilegeLevel) = _
    simp only [readHeader, hmode.1, huid.1, hgid.1]
    rfl
  · exact h.typeFlag
  · rw [h.read_path hnames, toName_pathBytes]
    rfl
  · exact h.read_name hne hnames hshort
  · exact h.read_parent hne hnames hshort
  · exact h.read_terminated hshort

end

end Entry.At

end InitRAMFS
