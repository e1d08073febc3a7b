import FrostyOS.ELFEntryData

/-! # The page table in force while a program is loaded

`ELF_Executable::Load` switches to the page table of the new program before it fills it. Of
its later exits only the last switches back. -/

open MachineWord

namespace ELF

open Trace List

section Load

variable (image : Image) (source : PageSource) (left : ℕ → UInt8) (d : EntryData)

/-- What comes before the switch. -/
def inspect : Trace Action Unit := do
  checkHeader image
  let _ ← image.get image.addr 32 8
  loop (moreHeaders image) (scanHeader image) (2 ^ 16) 0 ()

/-- `ELF_Executable::Load`: the entry point if it returns true, and the page table in force
then. `created` says whether there was memory for a virtual page manager, and `root` is the new
page table. A source without pages left gives the null pointer. -/
def loadProgram (created : Bool) (root cr3 : ℕ) : Option ℕ × ℕ :=
  if (inspect image).result = none ∨ created = false then (none, cr3)
  else
    match (loop (moreHeaders image) (loadHeader image source left) (2 ^ 16) 0
      source.fresh).result with
    | none => (none, root)
    | some s =>
      match source.allocatePages s (divRoundup d.totalSize pageSize) 0 with
      | none => (none, root)
      | some _ => ((image.get image.addr 24 8).result, cr3)

/-- There are pages for all loadable segments, and then for the entry data. -/
def PagesGranted : List ℕ → source.State → Prop
  | [], s => source.allocatePages s (divRoundup d.totalSize pageSize) 0 ≠ none
  | i :: is, s =>
    if image.segmentType i = 1 then
      ∃ s' data, source.allocatePages s ((image.programHeader i).pageCount (left i))
        ((image.programHeader i).pageStart (left i)) = some (s', data) ∧ PagesGranted is s'
    else PagesGranted is s

end Load

variable {image : Image} {source : PageSource} {left : ℕ → UInt8} {d : EntryData}

theorem inspect_result : (inspect image).result ≠ none ↔
    image.Accepted ∧ ∀ i < image.programHeaderEntryCount, image.Known i := by
  rw [← checkHeader_result, ← scan_result, inspect, result_bind, result_get_bind]
  cases (checkHeader image).result with
  | none => exact iff_of_false (fun h => h rfl) fun h => nomatch h.1
  | some v =>
    rw [Option.bind_some, and_iff_right rfl]
    cases (loop _ _ _ _ _).result with
    | none => exact iff_of_false (fun h => h rfl) nofun
    | some v => exact iff_of_true nofun rfl

theorem sweep_granted (is : List ℕ) (s : source.State) (hknown : ∀ i ∈ is, image.Known i) :
    (∃ s', (sweep (loadHeader image source left) is s).result = some s' ∧
      source.allocatePages s' (divRoundup d.totalSize pageSize) 0 ≠ none) ↔
    PagesGranted image source left d is s := by
  induction is generalizing s with
  | nil =>
    rw [sweep, result_pure, PagesGranted]
    simp only [Option.some.injEq, exists_eq_left']
  | cons i is ih =>
    have ih := fun s => ih s fun j hj => hknown j (mem_cons_of_mem i hj)
    rw [sweep, result_bind, loadHeader_known s (hknown i mem_cons_self), PagesGranted]
    split_ifs with htype
    · rw [loadSegment_result]
      cases source.allocatePages s _ _ with
      | none =>
        refine iff_of_false ?_ ?_
        · rintro ⟨s', hs, -⟩
          cases hs
        · rintro ⟨s', data, hs, -⟩
          cases hs
      | some r =>
        rw [Option.map_some, Option.bind_some, ih]
        constructor
        · intro h
          exact ⟨r.1, r.2, rfl, h⟩
        · rintro ⟨s', data, hr, h⟩
          cases hr
          exact h
    · exact ih s

end ELF
