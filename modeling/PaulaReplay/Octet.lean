/-
  Octet - eight things of a kind, each in its slot.

  The replay has eight channels, eight voices and eight tracks, and a track
  step has a field for each of them.

  * `Slot` is the number of a slot, `Slot.ofNat` the one that the low bits of
    a number name;
  * `Octet` holds the eight things, `o[i]` is the one in slot `i`;
  * `Octet.set`, `Octet.modify`, `Octet.map` and `Octet.ofFn` change or make
    them;
  * `Octet.ext` and the lemmas `getElem_set`, `getElem_modify`, `getElem_map`,
    `getElem_ofFn` and `getElem_replicate` say what is in a slot;
  * `Octet.set_getElem_self`: putting back what is there changes nothing.
-/
namespace PaulaReplay

/-- The number of a slot. -/
abbrev Slot := Fin 8

namespace Slot

/-- The slot that the low three bits of a number name. -/
def ofNat (n : Nat) : Slot := Fin.ofNat 8 n

/-- The slots in their order. -/
def all : List Slot := List.finRange 8

end Slot

/-- Eight things of a kind. -/
structure Octet (α : Type) where
  items : Vector α 8
deriving DecidableEq, Repr

namespace Octet

variable {α β : Type}

/-- What is in a slot. -/
def get (o : Octet α) (i : Slot) : α := o.items[i]

instance : GetElem (Octet α) Slot α (fun _ _ => True) := ⟨fun o i _ => o.get i⟩

/-- The same thing in every slot. -/
def replicate (a : α) : Octet α := ⟨Vector.replicate 8 a⟩

instance [Inhabited α] : Inhabited (Octet α) := ⟨replicate default⟩

/-- In each slot what a function makes of its number. -/
def ofFn (f : Slot → α) : Octet α := ⟨Vector.ofFn f⟩

/-- Another thing in a slot. -/
def set (o : Octet α) (i : Slot) (a : α) : Octet α := ⟨o.items.set i a⟩

/-- The thing in a slot changed. -/
def modify (o : Octet α) (i : Slot) (f : α → α) : Octet α := o.set i (f o[i])

/-- The thing in every slot changed. -/
def map (f : α → β) (o : Octet α) : Octet β := ⟨o.items.map f⟩

/-- Whether something holds in every slot. -/
def all (o : Octet α) (p : α → Bool) : Bool := o.items.all p

/-- The things in the order of their slots. -/
def toList (o : Octet α) : List α := o.items.toList

@[ext]
theorem ext {a b : Octet α} (h : ∀ i : Slot, a[i] = b[i]) : a = b := by
  cases a with
  | mk v =>
    cases b with
    | mk w => exact congrArg mk (Vector.ext fun i hi => h ⟨i, hi⟩)

theorem getElem_set (o : Octet α) (i j : Slot) (a : α) :
    (o.set i a)[j] = if i = j then a else o[j] := by
  show (o.items.set i a)[j] = _
  rw [Fin.getElem_fin, Vector.getElem_set]
  simp only [Fin.val_inj]
  rfl

@[simp]
theorem getElem_set_self (o : Octet α) (i : Slot) (a : α) : (o.set i a)[i] = a := by
  rw [getElem_set, if_pos rfl]

theorem getElem_set_ne (o : Octet α) {i j : Slot} (h : i ≠ j) (a : α) :
    (o.set i a)[j] = o[j] := by
  rw [getElem_set, if_neg h]

theorem set_getElem_self (o : Octet α) (i : Slot) : o.set i o[i] = o := by
  ext j
  rw [getElem_set]
  split
  · next h => rw [h]
  · rfl

theorem getElem_modify (o : Octet α) (i j : Slot) (f : α → α) :
    (o.modify i f)[j] = if i = j then f o[i] else o[j] := getElem_set o i j _

@[simp]
theorem getElem_map (f : α → β) (o : Octet α) (i : Slot) : (o.map f)[i] = f o[i] := by
  show (o.items.map f)[i] = _
  rw [Fin.getElem_fin, Vector.getElem_map]
  rfl

@[simp]
theorem getElem_ofFn (f : Slot → α) (i : Slot) : (ofFn f)[i] = f i := by
  show (Vector.ofFn f)[i] = _
  rw [Fin.getElem_fin, Vector.getElem_ofFn]

@[simp]
theorem getElem_replicate (a : α) (i : Slot) : (replicate a)[i] = a := by
  show (Vector.replicate 8 a)[i] = _
  rw [Fin.getElem_fin, Vector.getElem_replicate]

theorem all_eq_true_iff (o : Octet α) (p : α → Bool) :
    o.all p = true ↔ ∀ i : Slot, p o[i] = true := by
  show o.items.all p = true ↔ _
  rw [Vector.all_eq_true]
  exact ⟨fun h i => h i i.isLt, fun h i hi => h ⟨i, hi⟩⟩

end Octet

end PaulaReplay
