import FrostyOS.FileCursor
import FrostyOS.FileSession
import FrostyOS.SharedResource

/-! # Streams on one file

All file streams of a regular file share its inode. Each call puts the head of its stream into
the inode first, so that what the others left there does not matter. -/
namespace VFS.FileStream

open Errno TempFS

variable {F : Type} (S : FileSystems F)

def getOffset (files : F) (stream : FileStream) : Option (F × ℤ) :=
  if S.getType files stream.inode ≠ .file then some (files, -eisdir)
  else
    stream.inodeState.map fun head =>
      let files := S.setCurrentHead files stream.inode head
      (files, (S.getCurrentHead files stream.inode).currentOffset)

inductive Call where
  | openFile
  | readStream (bytes : List UInt8) (count : ℤ)
  | seek (offset : ℤ)
  | rewind
  | getOffset
  | closeFile

/-- A call with what it returns and leaves in the caller's buffer. -/
def call (files : F) (stream : FileStream) : Call → Option (F × FileStream × ℤ × List UInt8)
  | .openFile =>
    match stream.openFile S files with
    | (files, stream, rc) => some (files, stream, rc, [])
  | .readStream bytes count => stream.readStream S files bytes count
  | .seek offset => (stream.seek S files offset).map fun (files, stream, rc) =>
      (files, stream, rc, [])
  | .rewind => (stream.rewind S files).map fun (files, stream, rc) => (files, stream, rc, [])
  | .getOffset => (stream.getOffset S files).map fun (files, offset) => (files, stream, offset, [])
  | .closeFile =>
    match stream.closeFile S files with
    | (files, stream, rc) => some (files, stream, rc, [])

end VFS.FileStream

namespace TempFS.TempFSInode

variable {node : TempFSInode}

def bare (node : TempFSInode) : TempFSInode := node.setCurrentHead ⟨0, false, 0, 0⟩

theorem setCurrentHead_bare (node : TempFSInode) (head : Head) :
    node.bare.setCurrentHead head = node.setCurrentHead head := rfl

theorem openInode_bare (node : TempFSInode) : node.openInode.1.bare = node.bare := by
  unfold openInode rewind
  split_ifs <;> rfl

theorem closeInode_bare (node : TempFSInode) : node.closeInode.1.bare = node.bare := by
  unfold closeInode
  split_ifs <;> rfl

theorem rewind_bare (node : TempFSInode) : node.rewind.1.bare = node.bare := by
  unfold rewind
  split_ifs <;> rfl

theorem seek_bare (node : TempFSInode) (o : ℕ) : (node.seek o).1.bare = node.bare := by
  have hloop : ∀ offset blocks (node : TempFSInode),
      (seekLoop offset blocks node).bare = node.bare := by
    intro offset blocks
    induction blocks with
    | nil => exact fun _ => rfl
    | cons block blocks ih =>
      intro node
      rw [seekLoop]
      split_ifs
      · rfl
      · rw [ih]
        rfl
  unfold seek
  split_ifs
  · rfl
  · rfl
  · rfl
  · rw [hloop]
    rfl

theorem readLoop_bare {count currentCount done : ℕ} {buffer} {exit}
    (h : readLoop count currentCount done node buffer = some exit) :
    exit.node.bare = node.bare := by
  fun_induction readLoop count currentCount done node buffer with
  | case1 | case2 | case7 =>
    simp only [Option.some.injEq] at h
    subst h
    rfl
  | case3 =>
    obtain ⟨filled, -, rfl⟩ := Option.map_eq_some_iff.mp h
    rfl
  | case4 | case6 => cases h
  | case5 _ _ _ _ _ _ _ _ _ _ _ filled hcopy ih => exact ih h

theorem readStream_bare {privilege bytes count} {out}
    (h : node.readStream privilege bytes count = some out) :
    out.node.bare = node.bare := by
  unfold readStream at h
  split at h
  · cases h
    rfl
  · obtain ⟨exit, hexit, rfl⟩ := Option.map_eq_some_iff.mp h
    rw [← readLoop_bare hexit]
    unfold finish
    split <;> rfl

end TempFS.TempFSInode

namespace TempFileSystem.Disk

open TempFS VFS TempFSInode SharedResource

variable {A : Type} {T : PageSource A} {d f g : Disk A} {i : ℕ} {pages : A} {file : TempFSInode}
  {stream : FileStream} {head : Head}

theorem put_self : d.put i (d.tree.inodes i).contents d.pages = d := by
  have hinodes : (d.put i (d.tree.inodes i).contents d.pages).tree.inodes = d.tree.inodes := by
    funext b
    by_cases hb : b = i
    · rw [hb, put_inode]
    · rw [put_other hb]
  have htree : (d.put i (d.tree.inodes i).contents d.pages).tree = d.tree :=
    Tree.ext hinodes rfl rfl rfl
  obtain ⟨tree, blockSize, next, pages, targets⟩ := d
  unfold put setContents at htree ⊢
  simp only [mk.injEq, and_true]
  exact htree

/-- The disk has the file at `i`, with some cursor. -/
def Has (d : Disk A) (i : ℕ) (file : TempFSInode) (pages : A) (f : Disk A) : Prop :=
  ∃ c, f = d.put i c pages ∧ c.bare = file.bare

theorem Has.setCurrentHead (h : Has d i file pages f) (head : Head) :
    (systems T).setCurrentHead f i head = d.put i (file.setCurrentHead head) pages := by
  obtain ⟨c, rfl, hc⟩ := h
  rw [setCurrentHead_put, ← setCurrentHead_bare, hc, setCurrentHead_bare]

/-- A call leaves every such disk as it is, or does the same on all of them. -/
def Uniform (d : Disk A) (i : ℕ) (file : TempFSInode) (pages : A)
    (act : Disk A → Option (Disk A × FileStream × ℤ × List UInt8)) : Prop :=
  (∃ p r, p.inode = i ∧ ∀ f, Has d i file pages f → act f = some (f, p, r)) ∨
    ∃ result, (∀ f, Has d i file pages f → act f = result) ∧
      ∀ f p r, result = some (f, p, r) → Has d i file pages f ∧ p.inode = i

variable {act : Disk A → Option (Disk A × FileStream × ℤ × List UInt8)}

theorem uniform_keep {p r} (hp : p.inode = i) (hact : ∀ f, act f = some (f, p, r)) :
    Uniform d i file pages act :=
  .inl ⟨p, r, hp, fun f _ => hact f⟩

section File

variable (T) (hfile : (d.tree.inodes i).type = .file)

include hfile

theorem Has.getType (h : Has d i file pages f) : (systems T).getType f i = .file := by
  obtain ⟨c, rfl, -⟩ := h
  exact getType_put hfile

theorem uniform_none (hact : ∀ f, (systems T).getType f i = .file → act f = none) :
    Uniform d i file pages act :=
  .inr ⟨none, fun f hf => hact f (hf.getType T hfile), fun _ _ _ h => by cases h⟩

/-- A call that looks at the disk only after it has put its head there. -/
theorem uniform_swap (head : Head)
    (hact : ∀ f g, (systems T).getType f i = .file → (systems T).getType g i = .file →
      (systems T).setCurrentHead f i head = (systems T).setCurrentHead g i head → act f = act g)
    (hresult : ∀ f p r, act (d.put i (file.setCurrentHead head) pages) = some (f, p, r) →
      Has d i file pages f ∧ p.inode = i) : Uniform d i file pages act := by
  have hhas : Has d i file pages (d.put i (file.setCurrentHead head) pages) := ⟨_, rfl, rfl⟩
  refine .inr ⟨act (d.put i (file.setCurrentHead head) pages), fun f hf => ?_, hresult⟩
  apply hact f _ (hf.getType T hfile) (hhas.getType T hfile)
  rw [hf.setCurrentHead, hhas.setCurrentHead]

theorem uniform_move {method} (hmethod : ∀ c, (method c).1.bare = c.bare) (hi : stream.inode = i) :
    Uniform d i file pages fun f =>
      (stream.move (systems T) (fun files => files.modify method) f).map
        fun (files, stream, rc) => (files, stream, rc, []) := by
  obtain ⟨inode, m, modes, privilege, _ | head⟩ := stream <;> obtain rfl : inode = i := hi
  · exact uniform_none T hfile fun f hf => by simp [FileStream.move, hf]
  apply uniform_swap T hfile head
  · intro f g hf hg hsame
    simp [FileStream.move, hf, hg, hsame]
  · intro f p r h
    simp [FileStream.move, getType_put hfile, setCurrentHead_put, modify_put hfile] at h
    obtain ⟨rfl, rfl, -⟩ := h
    exact ⟨⟨_, rfl, hmethod _⟩, rfl⟩

theorem call_uniform (hi : stream.inode = i) (c : FileStream.Call) :
    Uniform d i file pages fun f => stream.call (systems T) f c := by
  obtain ⟨inode, m, modes, privilege, state⟩ := stream
  obtain rfl : inode = i := hi
  cases c with
  | openFile =>
    cases state with
    | none =>
      apply uniform_swap T hfile ⟨0, false, 0, 0⟩
      · intro f g hf hg hsame
        simp [FileStream.call, FileStream.openFile, hf, hg, hsame]
      · intro f p r h
        simp [FileStream.call, FileStream.openFile, getType_put hfile, setCurrentHead_put,
          openInode_put hfile] at h
        split_ifs at h <;> obtain ⟨rfl, rfl, -⟩ := h <;>
          exact ⟨⟨_, rfl, openInode_bare _⟩, rfl⟩
    | some head => exact uniform_keep rfl fun f => rfl
  | readStream bytes count =>
    by_cases hneg : count < 0
    · exact uniform_keep rfl fun f => if_pos hneg
    by_cases hmode : modes &&& vfsRead = 0
    · exact uniform_keep rfl fun f => (if_neg hneg).trans (if_pos hmode)
    cases state with
    | none =>
      exact uniform_none T hfile fun f hf => by
        simp [FileStream.call, FileStream.readStream, FileStream.transfer, hneg, hmode, hf]
    | some head =>
      apply uniform_swap T hfile head
      · intro f g hf hg hsame
        simp [FileStream.call, FileStream.readStream, FileStream.transfer, hneg, hmode, hf, hg,
          hsame]
      · intro f p r h
        simp [FileStream.call, FileStream.readStream, FileStream.transfer, hneg, hmode,
          getType_put hfile, setCurrentHead_put, readStream_put hfile] at h
        obtain ⟨out, hout, rfl, rfl, -⟩ := h
        exact ⟨⟨_, rfl, (readStream_bare hout).trans rfl⟩, rfl⟩
  | seek offset =>
    by_cases hneg : offset < 0
    · apply uniform_keep (p := ⟨inode, m, modes, privilege, state⟩) (r := (-Errno.einval, [])) rfl
      intro f
      simp [FileStream.call, FileStream.seek, hneg]
    · simp only [FileStream.call, FileStream.seek, hneg, if_false]
      exact uniform_move T hfile (fun c => seek_bare c offset.toNat) rfl
  | rewind => exact uniform_move T hfile rewind_bare rfl
  | getOffset =>
    cases state with
    | none =>
      apply uniform_none T hfile
      intro f hf
      simp only [FileStream.call, FileStream.getOffset, hf]
      rfl
    | some head =>
      apply uniform_swap T hfile head
      · intro f g hf hg hsame
        simp [FileStream.call, FileStream.getOffset, hf, hg, hsame]
      · intro f p r h
        simp [FileStream.call, FileStream.getOffset, getType_put hfile, setCurrentHead_put] at h
        obtain ⟨rfl, rfl, -⟩ := h
        exact ⟨⟨_, rfl, rfl⟩, rfl⟩
  | closeFile =>
    cases state with
    | none => exact uniform_keep rfl fun f => rfl
    | some head =>
      apply uniform_swap T hfile head
      · intro f g hf hg hsame
        simp [FileStream.call, FileStream.closeFile, hf, hg, hsame]
      · intro f p r h
        simp [FileStream.call, FileStream.closeFile, getType_put hfile, setCurrentHead_put,
          closeInode_put hfile] at h
        obtain ⟨rfl, rfl, -⟩ := h
        exact ⟨⟨_, rfl, closeInode_bare _⟩, rfl⟩

theorem call_respects : Respects (fun files stream => FileStream.call (systems T) files stream)
    (fun stream => stream.inode = i) fun f g => Has d i file pages f ∧ Has d i file pages g := by
  have hcall : ∀ {f g f' p p' c r}, p.inode = i → Has d i file pages f → Has d i file pages g →
      FileStream.call (systems T) f p c = some (f', p', r) → Has d i file pages f' ∧
        p'.inode = i ∧ ∃ g', FileStream.call (systems T) g p c = some (g', p', r) ∧
          Has d i file pages g' := by
    intro f g f' p p' c r hp hf hg hcall
    have huniform : Uniform d i file pages _ := call_uniform T hfile hp c
    obtain ⟨p₁, r₁, hp₁, hact⟩ | ⟨result, hact, hresult⟩ := huniform
    · cases (hact f hf).symm.trans hcall
      exact ⟨hf, hp₁, g, hact g hg, hg⟩
    · obtain ⟨hf', hp'⟩ := hresult f' p' r ((hact f hf).symm.trans hcall)
      exact ⟨hf', hp', f', ((hact g hg).trans (hact f hf).symm).trans hcall, hf'⟩
  constructor
  · intro f g f' p p' c r hp hsame h
    exact ⟨(hcall hp hsame.1 hsame.2 h).1, hsame.2⟩
  · intro f g f' p p' c r hp hsame h
    obtain ⟨hf', hp', g', hg, hg'⟩ := hcall hp hsame.1 hsame.2 h
    exact ⟨hp', g', hg, hf', hg'⟩

end File

/-- **Independent cursors.** In every interleaving of calls on streams of one file, each stream
gets the results that it gets when the others make no calls. -/
theorem streams_independent (T : PageSource A) (hfile : (d.tree.inodes i).type = .file)
    {streams : ℕ → FileStream} (hstreams : ∀ k, (streams k).inode = i)
    {calls : List (ℕ × FileStream.Call)} {results : List (ℕ × ℤ × List UInt8)}
    (hrun : run (FileStream.call (systems T)) d streams calls = some results) (k : ℕ) :
    run (FileStream.call (systems T)) d streams (calls.filter (·.1 = k)) =
      some (results.filter (·.1 = k)) := by
  have hd : Has d i (d.tree.inodes i).contents d.pages d := ⟨_, put_self.symm, rfl⟩
  exact run_filter (call_respects T hfile) ⟨hd, hd⟩ hstreams rfl hrun

def oneFile : Disk Unit where
  tree :=
    { inodes := fun _ => ⟨[], .file, none, [], ⟨0, 0, 0⟩, pageFile 100 0 0⟩
      rootInodes := []
      rootPrivilege := ⟨0, 0, 0o755⟩
      linkDepth := fun _ => 0
      link_lt := fun _ h => by cases h }
  blockSize := MachineWord.pageSize
  next := 0
  pages := ()
  targets := fun _ h => by cases h

theorem streams_independent_two :
    run (FileStream.call (systems zeroPages)) oneFile (fun _ => ⟨0, 0, vfsRead, rootLevel, none⟩)
      [(1, .openFile), (1, .getOffset)] = some [(1, 0, []), (1, 0, [])] := by
  have hrun : run (FileStream.call (systems zeroPages)) oneFile
      (fun _ => ⟨0, 0, vfsRead, rootLevel, none⟩)
      [(0, .openFile), (1, .openFile), (0, .seek 8), (1, .getOffset)] =
        some [(0, 0, []), (1, 0, []), (0, 0, []), (1, 0, [])] := by
    decide +kernel
  exact streams_independent zeroPages rfl (fun _ => rfl) hrun 1

end TempFileSystem.Disk
