import StylePrune.Proofs.Css.Flattening
import StylePrune.Proofs.Css.Layout
import StylePrune.Proofs.Css.Roundtrip

/-!
Positions and offsets of tokens. The line and the column that the reader counts up to a token map back to the number
of characters before it, and a component at any depth has the position of the token that it starts with.
-/

set_option autoImplicit false

namespace StylePrune.Css

/-- The tokens of a text whose first character is at offset `n`, each with the offset at which it starts. -/
def tokensFrom (n : Nat) : Text → List (Nat × Lexeme)
  | [] => []
  | c :: s =>
    have := readToken_length c s
    let read := readToken c s
    read.1.map (n, ·) ++ tokensFrom (n + (s.length + 1 - read.2.length)) read.2
termination_by s => s.length

/-- The first of the two tokens that a string or a URL is which the end of the text cuts off. -/
def Lexeme.IsCut (l : Lexeme) : Prop := ∃ x : CutOff, l = .leaf x.leaf

/-- `a` stands before `b`, and where it takes up nothing it was cut off. -/
def Precedes (a b : Nat × Lexeme) : Prop := a.1 ≤ b.1 ∧ (¬ a.2.IsCut → a.1 < b.1)

theorem take_readToken (c : CodePoint) (s : Text) :
    ∃ a, s = a ++ (readToken c s).2 ∧ (c :: s).take (s.length + 1 - (readToken c s).2.length) = c :: a := by
  obtain ⟨a, ha⟩ := readToken_suffix c s
  refine ⟨a, ha.symm, ?_⟩
  have hlen : s.length = a.length + (readToken c s).2.length := by rw [← List.length_append, ha]
  have hn : s.length + 1 - (readToken c s).2.length = (c :: a).length := by
    rw [List.length_cons]
    omega
  have hs : c :: s = (c :: a) ++ (readToken c s).2 := by rw [List.cons_append, ha]
  rw [hn, hs]
  exact List.take_left

theorem mem_tokensFrom {n : Nat} {s : Text} {x : Nat × Lexeme} (h : x ∈ tokensFrom n s) : n ≤ x.1 ∧ x.1 < n + s.length := by
  fun_induction tokensFrom n s with
  | case1 => cases h
  | case2 n c s hr read ih =>
    have hr : read.2.length ≤ s.length := hr
    rw [List.length_cons]
    rcases List.mem_append.1 h with h | h
    · obtain ⟨l, -, rfl⟩ := List.mem_map.1 h
      exact ⟨Nat.le_refl n, by simp only []; omega⟩
    · have := ih h
      omega

/-- A position counted from token to token is the one after all characters before the token. -/
theorem lexFrom_past (t v : Text) :
    lexFrom (Position.first.past t) v =
      (tokensFrom t.length v).map fun x => (Position.first.past ((t ++ v).take x.1), x.2) := by
  induction hl : v.length using Nat.strongRecOn generalizing t v with
  | ind l ih =>
    subst hl
    cases v with
    | nil => simp [lexFrom, tokensFrom]
    | cons c s =>
      obtain ⟨a, ha, htake⟩ := take_readToken c s
      have hlen : (t ++ c :: a).length = t.length + (s.length + 1 - (readToken c s).2.length) := by
        have := congrArg List.length ha
        simp only [List.length_append, List.length_cons] at this ⊢
        omega
      have happ : t ++ c :: a ++ (readToken c s).2 = t ++ c :: s := by
        rw [List.append_assoc, List.cons_append, ← ha]
      have ih := ih _ (Nat.lt_succ_of_le (readToken_length c s)) (t ++ c :: a) _ rfl
      rw [hlen, happ] at ih
      rw [lexFrom, tokensFrom, htake, ← Position.past_append, List.map_append, ih, List.map_map]
      simp only [Function.comp_def, List.take_left]

namespace LinedText

/-- A line and a column from 1 on, and a line that the text has. -/
structure HasPosition (src : LinedText) (p : Position) : Prop where
  line_pos : 0 < p.line
  line_le : p.line ≤ src.lineStarts.length
  column_pos : 0 < p.column

theorem hasPosition_past {s t u : Text} (h : seen s = t ++ u) : (ofText s).HasPosition (Position.first.past t) := by
  have hp : Position.first.past t = _ := (past_eq t (l := 1) (Nat.le_refl 0)).2
  have hs : linesAfter 0 s = linesAfter 0 t ++ linesAfter t.length u := by
    rw [← linesAfter_seen, h, linesAfter_append, Nat.zero_add]
  rw [hp]
  refine ⟨Nat.lt_add_right _ Nat.one_pos, ?_, Nat.succ_pos _⟩
  simp only [ofText, hs, List.length_cons, List.length_append]
  omega

/-- Positions of tokens map back to the offsets of the tokens. -/
theorem map_index_lex {T : Text} (hT : ∀ c ∈ T, c ≠ '\r' ∧ c ≠ '\x0c') :
    (lex T).map (fun t => ((ofText T).index t.1, t.2)) = tokensFrom 0 (seen T) ∧
      ∀ t ∈ lex T, (ofText T).HasPosition t.1 := by
  have hl := lexFrom_past [] (seen T)
  rw [lex, preprocess_of_clean hT]
  rw [Position.past_nil, List.length_nil, List.nil_append] at hl
  have split {x : Nat × Lexeme} (hx : x ∈ tokensFrom 0 (seen T)) :
      seen T = (seen T).take x.1 ++ (seen T).drop x.1 ∧ ((seen T).take x.1).length = x.1 := by
    have := (mem_tokensFrom hx).2
    refine ⟨(List.take_append_drop x.1 (seen T)).symm, ?_⟩
    rw [List.length_take]
    omega
  rw [hl, List.map_map]
  refine ⟨(List.map_congr_left fun x hx => ?_).trans (List.map_id _), List.forall_mem_map.2 fun x hx => ?_⟩
  · exact Prod.ext ((index_past (split hx).1).trans (split hx).2) rfl
  · exact hasPosition_past (split hx).1

end LinedText

/-- Each token stands before those that follow it. -/
theorem pairwise_tokensFrom (n : Nat) (s : Text) : (tokensFrom n s).Pairwise Precedes := by
  fun_induction tokensFrom n s with
  | case1 => exact .nil
  | case2 n c s hr read ih =>
    refine List.pairwise_append.2 ⟨?_, ih, fun x hx y hy => ?_⟩
    · have ho : Outcome c s (read.1, read.2) := outcome_readToken c s
      generalize read.1 = ls at ho
      generalize read.2 = r at ho
      cases ho with
      | cut x =>
        refine List.pairwise_pair.2 ⟨Nat.le_refl n, fun h => absurd ⟨x, rfl⟩ h⟩
      | leaf | function | opening | closing => exact List.pairwise_singleton _ _
    · have hr : read.2.length ≤ s.length := hr
      obtain ⟨l, -, rfl⟩ := List.mem_map.1 hx
      have := (mem_tokensFrom hy).1
      exact ⟨by simp only []; omega, fun _ => by simp only []; omega⟩

section Places

mutual
/-- The components at every depth, what holds others before those: position and first token. -/
def Component.places : Component → List (Position × Lexeme)
  | .leaf p t => [(p, t.token)]
  | .block p b cs => (p, .opening b) :: placesAll cs
  | .function p name cs => (p, .function name) :: placesAll cs

def placesAll : List Component → List (Position × Lexeme)
  | [] => []
  | c :: cs => c.places ++ placesAll cs
end

@[simp] theorem placesAll_append (cs ds : List Component) : placesAll (cs ++ ds) = placesAll cs ++ placesAll ds := by
  induction cs with
  | nil => rfl
  | cons c cs ih => simp [placesAll, ih]

theorem places_component (l : Level) (cs : List Component) :
    (l.component cs).places = (l.pos, openerOf l.head) :: placesAll cs := by
  obtain ⟨p, h, before⟩ := l
  cases h <;> rfl

namespace Nesting

def openPlaces : List Level → List (Position × Lexeme)
  | [] => []
  | l :: ls => openPlaces ls ++ placesAll l.before.reverse ++ [(l.pos, openerOf l.head)]

/-- What the components of a nesting start with, open levels before what is in them. -/
def places (n : Nesting) : List (Position × Lexeme) := openPlaces n.levels ++ placesAll n.current.reverse

theorem places_add (n : Nesting) (c : Component) : (n.add c).places = n.places ++ c.places := by
  simp [add, places, placesAll]

theorem places_openLevel (n : Nesting) (p : Position) (h : Text ⊕ Bracket) :
    (n.openLevel p h).places = n.places ++ [(p, openerOf h)] := by
  simp [openLevel, places, openPlaces, placesAll]

/-- A token that closes a level leaves no component of its own; any other token is the first of a new one. -/
theorem places_step_sublist (n : Nesting) (p : Position) {l : Lexeme} (hl : l.IsProper) :
    (n.step (p, l)).places.Sublist (n.places ++ [(p, l)]) := by
  cases l with
  | leaf t =>
    have ht := n.places_add (.leaf p t)
    rw [Component.places, t.token_of_isProper hl] at ht
    exact ht ▸ .refl _
  | opening b => exact n.places_openLevel p (.inr b) ▸ .refl _
  | function name => exact n.places_openLevel p (.inl name) ▸ .refl _
  | closing b =>
    obtain ⟨_ | ⟨l, ls⟩, cs⟩ := n
    · exact places_add ⟨[], cs⟩ (.leaf p (.error (.unmatched b))) ▸ .refl _
    · simp only [step]
      split
      · have he : places ⟨ls, l.component cs.reverse :: l.before⟩ = places ⟨l :: ls, cs⟩ := by
          simp [places, openPlaces, placesAll, places_component]
        exact he ▸ List.sublist_append_left _ _
      · exact places_add ⟨l :: ls, cs⟩ (.leaf p (.error (.unmatched b))) ▸ .refl _

theorem placesAll_finish (n : Nesting) : placesAll n.finish = n.places := by
  obtain ⟨ls, cs⟩ := n
  simp only [finish]
  induction ls generalizing cs with
  | nil => simp [closeAll, places, openPlaces]
  | cons l ls ih =>
    rw [closeAll, ih]
    simp [places, openPlaces, placesAll, places_component]

end Nesting

/-- Components at every depth have the position of their first token, in the order of the tokens. -/
theorem placesAll_nest_sublist {ts : List (Position × Lexeme)} (h : ∀ t ∈ ts, t.2.IsProper) :
    (placesAll (nest ts)).Sublist ts := by
  rw [nest, Nesting.placesAll_finish]
  induction ts using List.reverseRecOn with
  | nil => exact .refl _
  | append_singleton ts t ih =>
    obtain ⟨hts, ht⟩ := List.forall_mem_append.1 h
    rw [List.foldl_append, List.foldl_cons, List.foldl_nil]
    have hstep := Nesting.places_step_sublist (ts.foldl Nesting.step .start) t.1 (ht t (List.mem_singleton.2 rfl))
    exact hstep.trans ((ih hts).append_right [t])

theorem placesAll_nest_lex_sublist (s : Text) : (placesAll (nest (lex s))).Sublist (lex s) :=
  placesAll_nest_sublist fun _ ht => isProper_of_mem_lex ht

end Places

end StylePrune.Css
