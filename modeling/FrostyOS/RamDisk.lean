import FrostyOS.FileCreation
import FrostyOS.Streams

/-! # The RAM disk

The temporary file system of `MountRoot` as the only one that the VFS has mounted. -/
namespace TempFileSystem.Disk

open Errno TempFS VFS

variable {A : Type*} (d : Disk A)

theorem table_home_entries (i : ℕ) (hi : i ≤ ([] : List (MountPoint TempFSInode)).length)
    (p : Option ℕ) (y : ℕ) (_ : ∀ x, p = some x → 0 = i)
    (_ : y ∈ ([⟨d.tree, none⟩].getD i ⟨d.tree, none⟩ : MountPoint TempFSInode).fs.entries p) :
    0 = i := (Nat.le_zero.mp hi).symm

theorem table_home_rootInode (i x : ℕ)
    (h : ([⟨d.tree, none⟩].getD i ⟨d.tree, none⟩ : MountPoint TempFSInode).rootInode = some x) :
    0 < i := by
  cases i with
  | zero => cases h
  | succ i => exact Nat.succ_pos i

def table : MountTable TempFSInode where
  root := ⟨d.tree, none⟩
  others := []
  home := fun _ => 0
  root_rootInode := rfl
  home_entries := d.table_home_entries
  home_rootInode := d.table_home_rootInode

def contents (x : ℕ) : TempFSInode := (d.tree.inodes (d.tree.resolve x)).contents

def getType (x : ℕ) : TempFS.InodeType :=
  if (d.tree.inodes (d.tree.resolve x)).type = .file then .file else .folder

def modify (method : TempFSInode → TempFSInode × ℤ) (x : ℕ) : Disk A × ℤ :=
  match method (d.contents x) with
  | (contents, rc) => (d.setContents (d.tree.resolve x) contents, rc)

def readStream (x : ℕ) (privilege : FilePrivilegeLevel) (bytes : List UInt8) (count : ℕ) :
    Option (Disk A × ℤ × List UInt8) :=
  ((d.contents x).readStream privilege (some bytes) count).map fun out =>
    (d.setContents (d.tree.resolve x) out.node, out.value, out.env)

def writeStream (S : PageSource A) (x : ℕ) (privilege : FilePrivilegeLevel) (bytes : List UInt8)
    (count : ℕ) : Option (Disk A × ℤ) :=
  ((d.contents x).writeStream S privilege (some bytes) count d.pages).map fun out =>
    ({ d.setContents (d.tree.resolve x) out.node with pages := out.env }, out.value)

/-- The head of a link is its own. The root mount is never taken down. -/
def systems (S : PageSource A) : FileSystems (Disk A) where
  getMountPoint := fun d _ => d.table.getMountPoint
  getType := getType
  getPrivilegeLevel := fun d x => (d.tree.inodes x).privilegeLevel
  getSize := fun d x => (d.contents x).getSize.1
  getCurrentHead := fun d x => (d.tree.inodes x).contents.getCurrentHead
  setCurrentHead := fun d x head =>
    d.setContents x ((d.tree.inodes x).contents.setCurrentHead head)
  openInode := fun d => d.modify TempFSInode.openInode
  closeInode := fun d => d.modify TempFSInode.closeInode
  rewind := fun d => d.modify TempFSInode.rewind
  seek := fun d x offset => d.modify (·.seek offset) x
  readStream := readStream
  writeStream := fun d => d.writeStream S
  getRootPrivilege := fun d _ => d.tree.rootPrivilege
  createFile := fun d _ current parent name => d.createFile S current parent (some name)
  createFolder := fun d _ current parent name => d.createFolder S current parent (some name)
  createSymLink := fun d _ current parent name target =>
    d.createSymLink S current parent (some name) (some target)
  destroyFileSystem := fun d _ => d

/-- No inode has been made; what the tree says of their addresses is never read. -/
def emptyInodes (_ : ℕ) : Inode TempFSInode :=
  ⟨[], .folder, none, [], ⟨0, 0, 0⟩, TempFSInode.clearedInode⟩

theorem emptyInodes_type (a : ℕ) : (emptyInodes a).type ≠ .symLink := InodeType.noConfusion

def empty (pages : A) : Disk A where
  tree :=
    { inodes := emptyInodes
      rootInodes := []
      rootPrivilege := ⟨0, 0, 0o755⟩
      linkDepth := fun _ => 0
      link_lt := fun a h => absurd h (emptyInodes_type a) }
  blockSize := MachineWord.pageSize
  next := 0
  pages
  targets := fun a h => absurd h (emptyInodes_type a)

def mounted : VFS.State (Disk A) where
  files := d
  mountPoints := [⟨0, none, none, 0⟩]
  fileStreams := fun _ => none
  streams := []
  directories := fun _ => none
  directoryStreams := []

theorem scanPieces_walk {t : Tree TempFSInode} (hu : t.UniqueNames) {ws} (hws : ws ≠ [])
    (hr : ∀ w ∈ ws, Regular w) (s : ℤ) {p} {x : ℕ} (hw : t.Walk p ws (some x)) :
    ∃ e, t.scanPieces ws s p = finish (some x) e := by
  induction ws generalizing s p with
  | nil => exact absurd rfl hws
  | cons w ws ih =>
    have hregular := hr w List.mem_cons_self
    obtain ⟨q, hq, hrest⟩ := Tree.walk_cons.mp hw
    obtain ⟨y, hy, rfl⟩ := (Tree.walk_down hregular).mp hq
    cases ws with
    | nil =>
      obtain rfl : x = y := Option.some.inj (Tree.walk_nil.mp hrest)
      refine ⟨s + 1 + w.length, ?_⟩
      have hnamed := (Tree.named_eq_some hu).mpr hy
      rw [Tree.scanPieces, if_neg hregular.1]
      cases p with
      | none => exact congrArg (finish · _) hnamed
      | some z =>
        rcases t.getTMPFSChild_spec z w with ⟨status, -, hnone⟩ | ⟨y, hget, hsome⟩
        · exact absurd (hnone.symm.trans hnamed) (Option.some_ne_none x).symm
        · cases hsome.symm.trans hnamed
          simp only [Tree.lastComponent, hget]
    | cons v ws =>
      rw [Tree.scanPieces_down hu hregular s hy]
      exact ih (List.cons_ne_nil v ws) (fun u hu' => hr u (List.mem_cons_of_mem w hu')) _ hrest

def joined (ws : List Name) : Name := [pathSeparator].intercalate ws

theorem pieces_joined {ws} (hws : ws ≠ []) (hsep : ∀ w ∈ ws, pathSeparator ∉ w) :
    pieces (joined ws) = ws := List.splitOn_intercalate pathSeparator hsep hws

theorem joined_head {w} (ws : List Name) (hr : Regular w) (hsep : pathSeparator ∉ w) :
    (joined (w :: ws)).head? ≠ some pathSeparator := by
  obtain ⟨c, w, rfl⟩ := List.exists_cons_of_ne_nil hr.1
  have hc : c ≠ pathSeparator := fun h => hsep (h ▸ List.mem_cons_self)
  have hhead : (joined ((c :: w) :: ws)).head? = some c := by
    cases ws <;> simp [joined, List.intercalate]
  rw [hhead]
  simpa using hc

variable {d}

theorem getMountPoint_joined (hu : d.tree.UniqueNames) {ws : List Name} (hws : ws ≠ [])
    (hr : ∀ w ∈ ws, Regular w) (hsep : ∀ w ∈ ws, pathSeparator ∉ w) {x : ℕ}
    (hw : d.tree.Walk none ws (some x)) :
    d.table.getMountPoint (joined ws) none = some ⟨some 0, some x, 0⟩ := by
  have hpieces := pieces_joined hws hsep
  obtain ⟨w, rest, rfl⟩ := List.exists_cons_of_ne_nil hws
  have hhead := joined_head rest (hr w List.mem_cons_self) (hsep w List.mem_cons_self)
  have hroot : joined (w :: rest) ≠ [pathSeparator] := by
    intro h
    rw [h] at hhead
    exact hhead rfl
  have hspecial : ∀ u, ¬ Regular u → pieces u = [u] → joined (w :: rest) ≠ u := by
    intro u hu' hone h
    rw [h, hone] at hpieces
    obtain ⟨rfl, -⟩ := List.cons.inj hpieces
    exact hu' (hr u List.mem_cons_self)
  obtain ⟨e, hscan⟩ := scanPieces_walk hu hws hr (-1) hw
  have hfound : (d.table.fs 0).getSubInode none (joined (w :: rest)) = finish (some x) e := by
    rw [Tree.getSubInode_eq, hpieces]
    exact hscan
  rw [MountTable.getMountPoint, if_neg hroot, if_pos hhead]
  rw [MountTable.fromWorkingDirectory, if_neg (hspecial dot (by decide) (by decide)),
    if_neg (hspecial dotDot (by decide) (by decide)), hfound]
  simp [finish]

end TempFileSystem.Disk
