import Mathlib.Data.List.GetD
import Mathlib.Data.UInt

/-! Byte-addressed memory of a 64-bit machine. Ranges wrap at the top of the address space.
What a range held before a store, stored again, takes the store back. -/
namespace ByteMemory

abbrev Memory := UInt64 → UInt8

variable {m m' : Memory} {a : UInt64} {n : ℕ} {bs : List UInt8}

def InRange (a : UInt64) (n : ℕ) (x : UInt64) : Prop := (x - a).toNat < n

def load (m : Memory) (a : UInt64) (n : ℕ) : List UInt8 :=
  (List.range n).map fun i => m (a + UInt64.ofNat i)

def store (m : Memory) (a : UInt64) (bs : List UInt8) : Memory :=
  fun x => bs.getD (x - a).toNat (m x)

@[simp] theorem length_load : (load m a n).length = n := by
  simp [load]

theorem store_of_not_inRange {x} (hx : ¬ InRange a bs.length x) :
    store m a bs x = m x := List.getD_eq_default _ _ (not_lt.mp hx)

theorem store_load_of_inRange {x} (hx : InRange a n x) :
    store m' a (load m a n) x = m x := by
  have hx' : (x - a).toNat < (load m a n).length := by rwa [length_load]
  rw [store, List.getD_eq_getElem _ _ hx']
  simp only [load, List.getElem_map, List.getElem_range, UInt64.ofNat_toNat]
  rw [add_sub_cancel]

theorem store_load_eq (h : ∀ x, ¬ InRange a n x → m' x = m x) : store m' a (load m a n) = m := by
  funext x
  by_cases hx : InRange a n x
  · exact store_load_of_inRange hx
  · rw [store_of_not_inRange (by rwa [length_load]), h x hx]

theorem store_undo : store (store m a bs) a (load m a bs.length) = m :=
  store_load_eq fun _ hx => store_of_not_inRange hx

/-- The lowest `n` bytes of a number, lowest byte first. -/
def toBytes : ℕ → ℕ → List UInt8
  | 0, _ => []
  | n + 1, v => UInt8.ofNat v :: toBytes n (v / 256)

def ofBytes : List UInt8 → ℕ
  | [] => 0
  | b :: bs => b.toNat + 256 * ofBytes bs

@[simp] theorem length_toBytes (n v : ℕ) : (toBytes n v).length = n := by
  induction n generalizing v with
  | zero => rfl
  | succ n ih => rw [toBytes, List.length_cons, ih]

theorem ofBytes_lt (bs : List UInt8) : ofBytes bs < 256 ^ bs.length := by
  induction bs with
  | nil => exact Nat.one_pos
  | cons b bs ih =>
    have hb := b.toNat_lt
    rw [ofBytes, List.length_cons, pow_succ]
    omega

theorem toBytes_ofBytes (bs : List UInt8) : toBytes bs.length (ofBytes bs) = bs := by
  induction bs with
  | nil => rfl
  | cons b bs ih =>
    have hb := b.toNat_lt
    have hdiv : (b.toNat + 256 * ofBytes bs) / 256 = ofBytes bs := by omega
    have hlow : UInt8.ofNat (b.toNat + 256 * ofBytes bs) = b := by
      apply UInt8.toNat_inj.1
      rw [UInt8.toNat_ofNat']
      omega
    rw [ofBytes, List.length_cons, toBytes, hdiv, ih, hlow]

theorem ofBytes_toBytes {n v : ℕ} (h : v < 256 ^ n) : ofBytes (toBytes n v) = v := by
  induction n generalizing v with
  | zero =>
    rw [Nat.pow_zero] at h
    exact (Nat.lt_one_iff.mp h).symm
  | succ n ih =>
    have hdiv : v / 256 < 256 ^ n := by
      rw [pow_succ] at h
      omega
    rw [toBytes, ofBytes, ih hdiv, UInt8.toNat_ofNat']
    omega

def loadWord (m : Memory) (a : UInt64) : UInt64 := UInt64.ofNat (ofBytes (load m a 8))

def storeWord (m : Memory) (a v : UInt64) : Memory := store m a (toBytes 8 v.toNat)

theorem toBytes_loadWord : toBytes 8 (loadWord m a).toNat = load m a 8 := by
  have hlt := ofBytes_lt (load m a 8)
  have hround := toBytes_ofBytes (load m a 8)
  rw [length_load] at hlt hround
  rw [loadWord, UInt64.toNat_ofNat_of_lt' hlt, hround]

theorem storeWord_undo {v} : storeWord (storeWord m a v) a (loadWord m a) = m := by
  rw [storeWord, toBytes_loadWord]
  exact store_load_eq fun x hx => store_of_not_inRange (by rwa [length_toBytes])

end ByteMemory
