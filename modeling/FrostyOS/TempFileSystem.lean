import FrostyOS.TempFSInode
import Mathlib.Data.List.Basic

/-! # The inode tree of the temporary file system

Inodes are records behind addresses; a null pointer is `none`. A symbolic link keeps its
target as the first entry of its child list, and every lookup on a link is passed on to
that target. `getSubInode` is the path scanner with its four outputs. -/
namespace TempFileSystem

open Errno TempFS

abbrev Name := List Char

def pathSeparator : Char := '/'

def dot : Name := ['.']

def dotDot : Name := ['.', '.']

inductive InodeType where
  | file
  | folder
  | symLink
  deriving DecidableEq, Repr

structure Inode (β : Type*) where
  name : Name
  type : InodeType
  parent : Option ℕ
  children : List ℕ
  privilegeLevel : FilePrivilegeLevel
  contents : β
  deriving DecidableEq, Repr

/-- A link is made after its target and never changed, so chains of links end. -/
@[ext] structure Tree (β : Type*) where
  inodes : ℕ → Inode β
  rootInodes : List ℕ
  rootPrivilege : FilePrivilegeLevel
  linkDepth : ℕ → ℕ
  link_lt : ∀ a, (inodes a).type = .symLink → linkDepth ((inodes a).children.headD a) < linkDepth a

variable {β : Type*} (fs : Tree β)

def Tree.getTarget (a : ℕ) : ℕ :=
  if (fs.inodes a).type = .symLink then (fs.inodes a).children.headD a else a

/-- At most `n` steps along a chain of links. -/
def Tree.follow : ℕ → ℕ → ℕ
  | 0, a => a
  | n + 1, a =>
    if (fs.inodes a).type = .symLink then Tree.follow n ((fs.inodes a).children.headD a) else a

/-- The inode on which a call made on `a` ends up: every method calls itself on the target
as long as that is another inode. -/
def Tree.resolve (a : ℕ) : ℕ := fs.follow (fs.linkDepth a) a

def Tree.getParent (a : ℕ) : Option ℕ := (fs.inodes (fs.resolve a)).parent

def Tree.getChildCount (a : ℕ) : ℕ := (fs.inodes (fs.resolve a)).children.length

def Tree.named (entries : List ℕ) (name : Name) : Option ℕ :=
  entries.find? fun y => (fs.inodes y).name = name

def Tree.getTMPFSChild (a : ℕ) (name : Name) : Except ℤ ℕ :=
  let target := fs.inodes (fs.resolve a)
  if target.type ≠ .folder then .error (-enotdir)
  else match fs.named target.children name with
    | none => .error (-enoent)
    | some y => .ok y

/-- The result and the three output parameters; `status` is `none` where it is not stored. -/
structure SubInode where
  inode : Option ℕ
  lastInode : Option ℕ
  endIndex : ℤ
  status : Option ℤ
  deriving DecidableEq, Repr

def component (path : Name) (lastSeparator : ℤ) (i : ℕ) : Name :=
  (path.drop (lastSeparator + 1).toNat).take (i - (lastSeparator + 1)).toNat

/-- A component that a separator follows. At the root a name that no root inode has
leaves `last_inode` null. -/
def Tree.enterComponent (lastInode : Option ℕ) (name : Name) (lastSeparator i : ℤ) :
    Except SubInode (Option ℕ) :=
  match lastInode with
  | some x =>
    if name = dotDot then .ok (fs.getParent x)
    else if name = dot then .ok (some x)
    else match fs.getTMPFSChild x name with
      | .error status => .error ⟨none, some x, lastSeparator, some status⟩
      | .ok y => .ok (some y)
  | none =>
    if name = dot then .ok none
    else if name = dotDot then .error ⟨none, none, i, some 0⟩
    else .ok (fs.named fs.rootInodes name)

def finish (lastInode : Option ℕ) (i : ℤ) : SubInode :=
  ⟨lastInode, lastInode, i, if lastInode = none then some (-enoent) else none⟩

/-- The component after the last separator, looked up as it is written. -/
def Tree.lastComponent (lastInode : Option ℕ) (name : Name) (lastSeparator i : ℤ) : SubInode :=
  match lastInode with
  | some x => match fs.getTMPFSChild x name with
    | .error status => ⟨none, some x, lastSeparator, some status⟩
    | .ok y => finish (some y) i
  | none => finish (fs.named fs.rootInodes name) i

/-- The loop over the characters from index `i` on and what follows it. -/
def Tree.scan (path : Name) : Name → ℕ → ℤ → Option ℕ → SubInode
  | [], i, lastSeparator, lastInode =>
    if lastSeparator < i ∧ i - lastSeparator > 1 then
      fs.lastComponent lastInode (component path lastSeparator i) lastSeparator i
    else finish lastInode i
  | c :: rest, i, lastSeparator, lastInode =>
    if c = pathSeparator then
      if lastSeparator < i ∧ i - lastSeparator > 1 then
        match fs.enterComponent lastInode (component path lastSeparator i) lastSeparator i with
        | .error result => result
        | .ok lastInode => Tree.scan path rest (i + 1) i lastInode
      else Tree.scan path rest (i + 1) i lastInode
    else Tree.scan path rest (i + 1) lastSeparator lastInode

def Tree.getSubInode (parent : Option ℕ) (path : Name) : SubInode :=
  match path with
  | c :: rest =>
    if c = pathSeparator then fs.scan path rest 1 0 parent else fs.scan path path 0 (-1) parent
  | [] => fs.scan path [] 0 (-1) parent

def Tree.getInode (path : Name) : SubInode := fs.getSubInode none path

theorem Tree.follow_of_le {n : ℕ} {a : ℕ} (h : fs.linkDepth a ≤ n) :
    fs.follow n a = fs.resolve a := by
  suffices H : ∀ m n a, fs.linkDepth a ≤ m → fs.linkDepth a ≤ n →
      fs.follow m a = fs.follow n a from H n _ a h le_rfl
  intro m
  induction m with
  | zero =>
    intro n a hm hn
    cases n with
    | zero => rfl
    | succ n =>
      have hlink : (fs.inodes a).type ≠ .symLink := fun h => by
        have := fs.link_lt a h
        omega
      simp only [Tree.follow, if_neg hlink]
  | succ m ih =>
    intro n a hm hn
    by_cases hlink : (fs.inodes a).type = .symLink
    · have hlt := fs.link_lt a hlink
      cases n with
      | zero => omega
      | succ n =>
        simp only [Tree.follow, if_pos hlink]
        exact ih n _ (by omega) (by omega)
    · cases n <;> simp only [Tree.follow, if_neg hlink]

theorem Tree.resolve_link {a : ℕ} (h : (fs.inodes a).type = .symLink) :
    fs.resolve a = fs.resolve ((fs.inodes a).children.headD a) := by
  have hlt := fs.link_lt a h
  obtain ⟨n, hn⟩ : ∃ n, fs.linkDepth a = n + 1 := ⟨fs.linkDepth a - 1, by omega⟩
  rw [Tree.resolve, hn, Tree.follow, if_pos h]
  exact fs.follow_of_le (by omega)

@[simp] theorem Tree.resolve_of_ne_link {a : ℕ} (h : (fs.inodes a).type ≠ .symLink) :
    fs.resolve a = a := by
  rw [Tree.resolve]
  cases fs.linkDepth a with
  | zero => rfl
  | succ n => rw [Tree.follow, if_neg h]

theorem Tree.type_resolve (a : ℕ) : (fs.inodes (fs.resolve a)).type ≠ .symLink := by
  induction h : fs.linkDepth a using Nat.strong_induction_on generalizing a with
  | _ n ih =>
    by_cases hlink : (fs.inodes a).type = .symLink
    · rw [fs.resolve_link hlink]
      exact ih _ (h ▸ fs.link_lt a hlink) _ rfl
    · rw [fs.resolve_of_ne_link hlink]
      exact hlink

end TempFileSystem
