import FrostyOS.Errno
import Mathlib.Data.List.Nodup

/-! # `FILE` objects of the C library

`fopen` takes a slot of `g_files` and `fclose` is to give it back. -/
namespace FileObjects

open List Function Errno

/-- The bits of `g_used_files`, the descriptors in `g_files`, and those the kernel has open. -/
structure State where
  used : ℕ → Bool := fun _ => false
  descriptor : ℕ → ℤ := fun _ => 0
  descriptors : List ℤ := []

/-- `none` is `FOPEN_MAX`. -/
def allocateFile (used : ℕ → Bool) : Option ℕ := (range 8).find? fun i => !used i

def modes : List String := ["r", "w", "a", "r+", "w+"]

/-- `fopen` when `open` returns `fd`; `mode` is `none` when the path or the mode is null. -/
def State.fopen (s : State) (mode : Option String) (fd : ℤ) : State × Except ℤ ℕ :=
  if mode = none then (s, .error (-efault))
  else if ∀ m ∈ mode, m ∉ modes then (s, .error (-einval))
  else if fd < 0 then (s, .error fd)
  else match allocateFile s.used with
    | none => ({ s with descriptors := fd :: s.descriptors }, .error (-emfile))
    | some i =>
      (⟨update s.used i true, update s.descriptor i fd, fd :: s.descriptors⟩, .ok i)

/-- The test of `FreeFile` is `&(file[i]) == file`. -/
def State.fclose (s : State) (file : ℕ) : State :=
  match (range 8).find? fun i => file + i = file with
  | none => s
  | some i => { s with
      used := update s.used i false
      descriptors := s.descriptors.erase (s.descriptor file) }

inductive Call where
  | fopen (mode : Option String) (fd : ℤ)
  | fclose (file : ℕ)

/-- The state and the open files, with their descriptors, after a call. -/
def after (s : State) (files : List (ℕ × ℤ)) : Call → State × List (ℕ × ℤ)
  | .fopen mode fd =>
    ((s.fopen mode fd).1, (s.fopen mode fd).2.toOption.toList.map (·, fd) ++ files)
  | .fclose file => (s.fclose file, files.filter (·.1 ≠ file))

/-- Only a file that is open is closed. -/
def Call.Legal (files : List (ℕ × ℤ)) : Call → Prop
  | .fopen _ _ => True
  | .fclose file => ∃ fd, (file, fd) ∈ files

def Opens (mode : Option String) (fd : ℤ) : Prop := (∃ m ∈ mode, m ∈ modes) ∧ 0 ≤ fd

def Call.Sound (s : State) : Call → Prop
  | .fopen mode fd => Opens mode fd → ∃ i < 8, s.used i = false
  | .fclose file => file = 0

inductive Run : State → List (ℕ × ℤ) → Prop where
  | start : Run {} []
  | call {s files} (c : Call) (hr : Run s files) (hl : c.Legal files) (hc : c.Sound s) :
      Run (after s files c).1 (after s files c).2

/-- A new file is none that is open, open files keep their descriptors, no descriptor stays
open after a failure, and a file that is closed frees its slot and no other. -/
def Right (s : State) (files : List (ℕ × ℤ)) : Call → Prop
  | .fopen mode fd => ∀ s' r, s.fopen mode fd = (s', r) →
    (∀ i, r = .ok i → s'.descriptor i = fd ∧ ∀ f ∈ files, f.1 ≠ i) ∧
    (∀ f ∈ files, s'.descriptor f.1 = f.2) ∧ ∀ e, r = .error e → s'.descriptors = s.descriptors
  | .fclose file => ∀ i < 8, (s.fclose file).used i = (s.used i && i != file)

variable {s : State} {files : List (ℕ × ℤ)} {c : Call}

theorem fclose_eq (s : State) (file : ℕ) : s.fclose file = { s with
    used := update s.used 0 false, descriptors := s.descriptors.erase (s.descriptor file) } := by
  simp [State.fclose, range_succ_eq_map]

theorem fopen_cases (s : State) (mode : Option String) (fd : ℤ) :
    ¬ Opens mode fd ∧ (∃ e, s.fopen mode fd = (s, .error e)) ∨ Opens mode fd ∧
      ((∀ i < 8, s.used i) ∧ s.fopen mode fd =
          ({ s with descriptors := fd :: s.descriptors }, .error (-emfile)) ∨
        ∃ i < 8, s.used i = false ∧ s.fopen mode fd =
          (⟨update s.used i true, update s.descriptor i fd, fd :: s.descriptors⟩, .ok i)) := by
  unfold State.fopen Opens
  split_ifs with h₁ h₂ h₃
  · exact .inl ⟨by simp [h₁], _, rfl⟩
  · refine .inl ⟨?_, _, rfl⟩
    rintro ⟨⟨m, hm, hmode⟩, -⟩
    exact h₂ m hm hmode
  · exact .inl ⟨by omega, _, rfl⟩
  refine .inr ⟨⟨by simpa using h₂, by omega⟩, ?_⟩
  cases hi : allocateFile s.used with
  | none => exact .inl ⟨by simpa [allocateFile] using hi, rfl⟩
  | some i =>
    exact .inr ⟨i, mem_range.mp (mem_of_find?_eq_some hi), by simpa using find?_some hi, rfl⟩

/-- Open files have their slots and their descriptors. -/
def Inv (s : State) (files : List (ℕ × ℤ)) : Prop :=
  ∀ f ∈ files, f.1 < 8 ∧ s.used f.1 ∧ s.descriptor f.1 = f.2

theorem Inv.ne {i : ℕ} (h : Inv s files) (hi : s.used i = false) : ∀ f ∈ files, f.1 ≠ i := by
  rintro f hf rfl
  exact Bool.false_ne_true (hi.symm.trans (h f hf).2.1)

theorem Inv.call (h : Inv s files) (hl : c.Legal files) : (Right s files c ↔ c.Sound s) ∧
    (c.Sound s → Inv (after s files c).1 (after s files c).2) := by
  cases c with
  | fopen mode fd =>
    rcases fopen_cases s mode fd with ⟨hno, e, he⟩ | ⟨hopen, ⟨hall, he⟩ | ⟨i, hi, hclear, he⟩⟩
    · refine ⟨iff_of_true (fun s' r hr => ?_) fun hopen => absurd hopen hno, fun _ => ?_⟩
      · cases he.symm.trans hr
        exact ⟨fun i hi => (nomatch hi), fun f hf => (h f hf).2.2, fun _ _ => rfl⟩
      · simpa [after, he, Except.toOption] using h
    · have hno : ¬ Call.Sound s (.fopen mode fd) := by
        intro hc
        obtain ⟨i, hi, hclear⟩ := hc hopen
        exact Bool.false_ne_true (hclear.symm.trans (hall i hi))
      refine ⟨iff_of_false (fun hright => ?_) hno, fun hc => absurd hc hno⟩
      exact cons_ne_self _ _ ((hright _ _ he).2.2 _ rfl)
    · have hne := h.ne hclear
      refine ⟨iff_of_true (fun s' r hr => ?_) fun _ => ⟨i, hi, hclear⟩, fun _ => ?_⟩
      · cases he.symm.trans hr
        refine ⟨?_, fun f hf => ?_, fun e he => (nomatch he)⟩
        · rintro _ ⟨rfl⟩
          exact ⟨update_self .., hne⟩
        · exact (update_of_ne (hne f hf) ..).trans (h f hf).2.2
      · simp only [after, he, Except.toOption, Option.toList_some, map_singleton, singleton_append]
        intro f hf
        rcases mem_cons.mp hf with rfl | hf
        · exact ⟨hi, update_self .., update_self ..⟩
        · simpa [update_of_ne (hne f hf)] using h f hf
  | fclose file =>
    obtain ⟨fd, hf⟩ := hl
    obtain ⟨hlt, hused, -⟩ := h _ hf
    refine ⟨⟨fun hright => ?_, ?_⟩, ?_⟩
    · by_contra hne
      have hfreed := hright file hlt
      simp [fclose_eq, update_of_ne hne, hused] at hfreed
    · rintro rfl i -
      by_cases hi : i = 0 <;> simp [fclose_eq, hi]
    · rintro rfl f hf
      obtain ⟨hf, hne⟩ := mem_filter.mp hf
      simpa [after, fclose_eq, update_of_ne (of_decide_eq_true hne)] using h f hf

theorem Run.inv (hr : Run s files) : Inv s files := by
  induction hr with
  | start => exact fun _ hf => nomatch hf
  | call c hr hl hc ih => exact (ih.call hl).2 hc

/-- After such calls the next one is right exactly when it is such a call too: `fclose` frees
slot 0 whatever its argument, and `fopen` keeps its descriptor open when no slot is free. -/
theorem stdio_right_iff (hr : Run s files) (hl : c.Legal files) :
    Right s files c ↔ c.Sound s := (hr.inv.call hl).1

theorem stdio_right_first : Right {} [] (.fopen (some "r") 3) :=
  (stdio_right_iff (c := .fopen (some "r") 3) .start trivial).mpr fun _ => ⟨0, by decide, rfl⟩

/-- Files 0 and 1 are open with descriptors 3 and 4. Closing file 1 frees slot 0, and the next
`fopen` returns file 0, which is still open. -/
theorem fclose_frees_slot_zero :
    let s := (((State.fopen {} (some "r") 3).1.fopen (some "r") 4).1.fclose 1)
    s.used 0 = false ∧ s.used 1 = true ∧ s.descriptor 0 = 3 ∧
      (s.fopen (some "r") 5).2.toOption = some 0 := by
  decide +kernel

end FileObjects
