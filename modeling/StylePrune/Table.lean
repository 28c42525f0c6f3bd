import StylePrune.Text.Basic

/-!
Finite maps that keep the order in which their keys first came.
-/

set_option autoImplicit false

namespace StylePrune

/-- Entries in order; no key stands twice. -/
structure Table (κ α : Type) where
  entries : List (κ × α)
  nodup : (entries.map Prod.fst).Nodup

namespace Table

variable {κ α β : Type}

def empty : Table κ α := ⟨[], by simp⟩

def keys (t : Table κ α) : List κ := t.entries.map Prod.fst

def map (f : κ → α → β) (t : Table κ α) : Table κ β :=
  ⟨t.entries.map fun e => (e.1, f e.1 e.2), by simpa [Function.comp_def] using t.nodup⟩

def filter (p : κ → α → Bool) (t : Table κ α) : Table κ α :=
  ⟨t.entries.filter fun e => p e.1 e.2, t.nodup.sublist (List.filter_sublist.map _)⟩

variable [DecidableEq κ]

def put (k : κ) (v : α) : List (κ × α) → List (κ × α)
  | [] => [(k, v)]
  | e :: es => if e.1 = k then (k, v) :: es else e :: put k v es

theorem mem_keys_put (k : κ) (v : α) (es : List (κ × α)) (a : κ) :
    a ∈ (put k v es).map Prod.fst ↔ a = k ∨ a ∈ es.map Prod.fst := by
  induction es with
  | nil => simp [put]
  | cons e es ih =>
    by_cases h : e.1 = k
    · simp only [put, h, if_true, List.map_cons, List.mem_cons]
      constructor
      · rintro (rfl | h') <;> simp [*]
      · rintro (rfl | rfl | h') <;> simp [*]
    · simp only [put, h, if_false, List.map_cons, List.mem_cons, ih]
      constructor
      · rintro (rfl | rfl | h') <;> simp [*]
      · rintro (rfl | rfl | h') <;> simp [*]

theorem nodup_put (k : κ) (v : α) {es : List (κ × α)} (h : (es.map Prod.fst).Nodup) :
    ((put k v es).map Prod.fst).Nodup := by
  induction es with
  | nil => simp [put]
  | cons e es ih =>
    simp only [List.map_cons, List.nodup_cons] at h
    by_cases he : e.1 = k
    · subst he
      simpa [put] using h
    · simp only [put, he, if_false, List.map_cons, List.nodup_cons, mem_keys_put]
      exact ⟨fun hk => hk.elim False.elim h.1, ih h.2⟩

def get? (t : Table κ α) (k : κ) : Option α := (t.entries.find? (·.1 = k)).map Prod.snd

/-- A key that is there keeps its place; a new one comes last. -/
def insert (t : Table κ α) (k : κ) (v : α) : Table κ α := ⟨put k v t.entries, nodup_put k v t.nodup⟩

def erase (t : Table κ α) (k : κ) : Table κ α := t.filter fun a _ => a ≠ k

/-- Of a key that comes again the first place and the last value count. -/
def ofList (es : List (κ × α)) : Table κ α := es.foldl (fun t e => t.insert e.1 e.2) empty

@[simp] theorem get?_empty (k : κ) : (empty : Table κ α).get? k = none := rfl

theorem get?_insert (t : Table κ α) (k a : κ) (v : α) :
    (t.insert k v).get? a = if a = k then some v else t.get? a := by
  obtain ⟨es, h⟩ := t
  simp only [get?, insert]
  clear h
  induction es with
  | nil => by_cases h : a = k <;> simp [put, h, eq_comm]
  | cons e es ih =>
    by_cases he : e.1 = k
    · subst he
      by_cases h : e.1 = a
      · simp [put, h]
      · simp [put, h, Ne.symm h]
    · simp only [put, he, if_false, List.find?_cons]
      by_cases h : e.1 = a
      · subst h; simp [he]
      · simp only [h, decide_false]
        exact ih

end Table
end StylePrune
