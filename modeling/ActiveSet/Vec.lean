import ActiveSet.Sweep

/-! Vectors of a fixed size, read by position: `v i` is zero outside the size.

Storage is an array; everything else sees a vector only through `get`, and each operation comes with
the one equation that says what its entries are.
-/

namespace ActiveSet

-- what a vector of places or of fractions reads as outside its size
instance zeroNat : Zero Nat := ⟨0⟩

instance zeroRat : Zero Rat := ⟨0⟩

structure Vec (α : Type) (n : Nat) where
  store : Vector α n

namespace Vec

variable {α : Type} {n : Nat}

def ofFn (f : Nat → α) : Vec α n := ⟨Vector.ofFn fun i => f i⟩

def ofList? (n : Nat) (entries : List α) : Option (Vec α n) :=
  if h : entries.length = n then some ⟨⟨entries.toArray, by simp [h]⟩⟩ else none

def toList (v : Vec α n) : List α := v.store.toList

theorem ofList?_eq_some {entries : List α} {v : Vec α n} : ofList? n entries = some v ↔ entries = v.toList := by
  obtain ⟨⟨store, hsize⟩⟩ := v
  unfold ofList? toList
  constructor
  · intro h
    split at h
    · cases h
      rfl
    · cases h
  · rintro rfl
    simp [hsize]

theorem ofList?_toList (v : Vec α n) : ofList? n v.toList = some v := ofList?_eq_some.2 rfl

section Entries

variable [Zero α]

def get (v : Vec α n) (i : Nat) : α := if h : i < n then v.store[i] else 0

instance : CoeFun (Vec α n) fun _ => Nat → α := ⟨get⟩

theorem get_ofFn (f : Nat → α) (i : Nat) : (ofFn f : Vec α n) i = if i < n then f i else 0 := by
  unfold get ofFn
  split <;> simp

@[simp] theorem get_ofFn_of_lt (f : Nat → α) {i : Nat} (h : i < n) : (ofFn f : Vec α n) i = f i := by
  simp [get_ofFn, h]

theorem get_of_le (v : Vec α n) {i : Nat} (h : n ≤ i) : v i = 0 := by
  unfold get
  split
  · omega
  · rfl

theorem ext {v w : Vec α n} (h : ∀ i < n, v i = w i) : v = w := by
  cases v with
  | mk s =>
    cases w with
    | mk t =>
      congr 1
      ext i hi
      simpa [get, hi] using h i hi

instance : Zero (Vec α n) := ⟨ofFn fun _ => 0⟩

@[simp] theorem get_zero (i : Nat) : (0 : Vec α n) i = 0 := by
  show (ofFn fun _ => 0 : Vec α n) i = 0
  simp [get_ofFn]

def set (v : Vec α n) (i : Nat) (a : α) : Vec α n := ofFn fun k => if k = i then a else v k

theorem get_set (v : Vec α n) {k : Nat} (hk : k < n) (i : Nat) (a : α) :
    (v.set i a) k = if k = i then a else v k := by simp [set, hk]

def exchange (v : Vec α n) (i j : Nat) : Vec α n :=
  ofFn fun k => if k = i then v j else if k = j then v i else v k

theorem get_exchange (v : Vec α n) {k : Nat} (hk : k < n) (i j : Nat) :
    (v.exchange i j) k = if k = i then v j else if k = j then v i else v k := by simp [exchange, hk]

theorem toList_eq_map (v : Vec α n) : v.toList = (List.range n).map v := by
  apply List.ext_getElem
  · simp [toList]
  · intro i hi hi'
    have hn : i < n := by simpa [toList] using hi
    simp [toList, get, hn]

theorem getElem?_toList (v : Vec α n) {i : Nat} (h : i < n) : v.toList[i]? = some (v i) := by
  simp [toList_eq_map, h]

end Entries

section Arithmetic

variable [Scalar α]

/-- `x` moved by `t` along `d`. -/
def along (x : Vec α n) (t : α) (d : Vec α n) : Vec α n := ofFn fun i => x i + t * d i

theorem get_along (x d : Vec α n) (t : α) {i : Nat} (h : i < n) : (x.along t d) i = x i + t * d i := by
  simp [along, h]

def isFinite (v : Vec α n) : Bool := v.toList.all Scalar.isFinite

end Arithmetic

end Vec

end ActiveSet
