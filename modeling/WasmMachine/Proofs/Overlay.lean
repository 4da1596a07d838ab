import WasmMachine.Memory
import WasmMachine.Table

/-!
# Overlays

Writing some ranges of an array one after the other leaves at each place what the last of them
that covers it puts there, and what was there before if none does (`overlay`).  So do the writes
to a table and to a memory (`Table.write_overlay`, `Memory.write_overlay`).
-/

namespace WasmMachine

variable {α : Type}

/-- Items to be written from a position on. -/
structure Patch (α : Type) where
  pos : Nat
  items : List α

/-- The item that belongs to a place. -/
def Patch.at? (p : Patch α) (k : Nat) : Option α :=
  if p.pos ≤ k then p.items[k - p.pos]? else none

/-- An array in which each item is replaced by that of the last of some patches to cover its
place. -/
def overlay (ps : List (Patch α)) (xs : Array α) : Array α :=
  xs.mapIdx fun k x => (ps.reverse.findSome? (·.at? k)).getD x

/-- At each place the last patch that covers it decides. -/
theorem getElem?_overlay (ps : List (Patch α)) (xs : Array α) (k : Nat) : (overlay ps xs)[k]? =
    xs[k]?.map fun x => (ps.reverse.findSome? (·.at? k)).getD x := by
  rw [overlay, Array.getElem?_mapIdx]

@[simp] theorem size_overlay (ps : List (Patch α)) (xs : Array α) :
    (overlay ps xs).size = xs.size := by
  rw [overlay, Array.size_mapIdx]

@[simp] theorem overlay_nil (xs : Array α) : overlay [] xs = xs := by
  apply Array.ext_getElem?
  intro k
  rw [getElem?_overlay]
  simp

theorem Patch.at?_cons (pos k : Nat) (x : α) (items : List α) :
    Patch.at? ⟨pos, x :: items⟩ k = if pos = k then some x else Patch.at? ⟨pos + 1, items⟩ k := by
  dsimp only [at?]
  rcases Nat.lt_trichotomy k pos with before | rfl | behind
  · rw [if_neg (by omega), if_neg (by omega), if_neg (by omega)]
  · rw [if_pos (Nat.le_refl k), if_pos rfl, Nat.sub_self, List.getElem?_cons_zero]
  · have next : k - pos = k - (pos + 1) + 1 := by omega
    rw [if_pos (by omega), if_neg (by omega), if_pos (by omega), next, List.getElem?_cons_succ]

/-- Overwriting items is one patch. -/
theorem getElem?_overwriteItems (xs : Array α) (pos : Nat) (items : List α) (k : Nat) :
    (overwriteItems xs pos items)[k]? = xs[k]?.map fun x =>
      (Patch.at? ⟨pos, items⟩ k).getD x := by
  induction items generalizing xs pos with
  | nil => simp [overwriteItems, Patch.at?]
  | cons y items ih =>
    rw [overwriteItems, ih, Array.getElem?_setIfInBounds, Patch.at?_cons]
    by_cases here : pos = k
    · subst here
      have later : Patch.at? ⟨pos + 1, items⟩ pos = none := if_neg (Nat.not_succ_le_self pos)
      rcases Nat.lt_or_ge pos xs.size with lt | ge
      · simp [later, lt]
      · simp [Nat.not_lt.mpr ge]
    · simp only [if_neg here]

/-- One more patch is written over the others. -/
theorem overlay_concat (ps : List (Patch α)) (p : Patch α) (xs : Array α) :
    overlay (ps ++ [p]) xs = overwriteItems (overlay ps xs) p.pos p.items := by
  apply Array.ext_getElem?
  intro k
  rw [getElem?_overwriteItems, getElem?_overlay, getElem?_overlay, Option.map_map]
  congr 1
  funext x
  rw [List.reverse_concat, List.findSome?_cons, Function.comp_apply]
  cases p.at? k <;> rfl

/-! ## Tables and memories -/

/-- A table with some patches. -/
def Table.overlay (ps : List (Patch Value)) (t : Table) : Table :=
  { t with values := WasmMachine.overlay ps t.values }

/-- A memory with some patches. -/
def Memory.overlay (ps : List (Patch UInt8)) (m : Memory) : Memory :=
  { m with
    bytes := ⟨WasmMachine.overlay ps m.bytes.data⟩
    whole := (WasmMachine.size_overlay ps m.bytes.data).trans m.whole }

@[simp] theorem Table.size_overlay (ps : List (Patch Value)) (t : Table) :
    (t.overlay ps).size = t.size :=
  WasmMachine.size_overlay ps t.values

@[simp] theorem Memory.size_overlay (ps : List (Patch UInt8)) (m : Memory) :
    (m.overlay ps).size = m.size := rfl

/-- A write to a table that has been patched is one patch more, if it fits the table. -/
theorem Table.write_overlay (ps : List (Patch Value)) (p : Patch Value) (t : Table) :
    Table.write p.pos p.items (t.overlay ps) =
      if p.pos + p.items.length ≤ t.size then .ok () (t.overlay (ps ++ [p]))
      else .error .tableBounds (t.overlay ps) := by
  rw [Table.write, size_overlay, overlay, overlay, overlay_concat]

theorem overwrite_eq (b : ByteArray) (pos : Nat) (items : List UInt8) :
    overwrite b pos items = ⟨overwriteItems b.data pos items⟩ := by
  induction items generalizing b pos with
  | nil => rfl
  | cons x items ih =>
    rw [overwrite, ih]
    rfl

theorem Memory.put_overlay (ps : List (Patch UInt8)) (p : Patch UInt8) (m : Memory) :
    (m.overlay ps).put p.pos p.items = m.overlay (ps ++ [p]) :=
  Memory.ext rfl rfl ((overwrite_eq ..).trans (congrArg ByteArray.mk (overlay_concat ..).symm))

/-- The same for a memory. -/
theorem Memory.write_overlay (ps : List (Patch UInt8)) (p : Patch UInt8) (m : Memory) :
    Memory.write p.pos p.items (m.overlay ps) =
      if p.pos + p.items.length ≤ m.size then .ok () (m.overlay (ps ++ [p]))
      else .error .memoryBounds (m.overlay ps) := by
  rw [Memory.write, size_overlay, put_overlay]

end WasmMachine
