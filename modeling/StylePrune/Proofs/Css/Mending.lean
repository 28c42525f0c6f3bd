import Mathlib
import StylePrune.Proofs.Css.Flattening
import StylePrune.Proofs.Css.Roundtrip

/-!
Tokens written one after the other with nothing between them, and the tokens that their text reads as. The newline behind a broken
string is spacing when it is read back, and a unit comes back in the one way in which it is written.
-/

set_option autoImplicit false

namespace StylePrune.Css

def Lexeme.write : Lexeme → Text
  | .leaf t => t.write
  | .opening b => [b.opener]
  | .closing b => [b.closer]
  | .function n => writeIdent n ++ [.char '(']

def writeTokens (ls : List Lexeme) : Text := ls.flatMap Lexeme.write

@[simp] theorem writeTokens_nil : writeTokens [] = [] := rfl

@[simp] theorem writeTokens_cons (x : Lexeme) (xs : List Lexeme) : writeTokens (x :: xs) = x.write ++ writeTokens xs :=
  List.flatMap_cons

@[simp] theorem writeTokens_append (xs ys : List Lexeme) : writeTokens (xs ++ ys) = writeTokens xs ++ writeTokens ys :=
  List.flatMap_append

theorem Leaf.write_token (t : Leaf) : t.token.write = t.write := by
  unfold token
  split <;> rfl

mutual
theorem Component.bare_eq (c : Component) : c.bare = writeTokens c.tokens := by
  cases c with
  | leaf p t => simp [Component.bare, Component.tokens, t.write_token]
  | block p b cs =>
    have h := bareAll_eq cs
    simp [Component.bare, Component.tokens, h, Lexeme.write]
  | function p name cs =>
    have h := bareAll_eq cs
    simp [Component.bare, Component.tokens, h, Lexeme.write, Bracket.closer]

/-- What is written of a tree are its tokens. -/
theorem bareAll_eq (cs : List Component) : bareAll cs = writeTokens (tokensAll cs) := by
  cases cs with
  | nil => rfl
  | cons c cs =>
    have hc := c.bare_eq
    have h := bareAll_eq cs
    rw [bareAll, tokensAll_cons, writeTokens_append, hc, h]
end

/-- Tokens that are what is read from the text that is written of them, up to the spacing behind broken strings and the
spelling of units. A string or URL that is cut off is the end of all. -/
def isClear : List Lexeme → Bool
  | [] => true
  | [.leaf (.string _ false), .leaf (.error .stringAtEnd)] => true
  | [.leaf (.url v false), .leaf (.error .urlAtEnd)] => v.all fun c => !isNonPrintable c
  | x :: xs => x.isClear (writeTokens xs) && isClear xs

section Mending

def Leaf.settle : Leaf → Leaf
  | .dimension r u => .dimension r (rereadUnit u)
  | t => t

def Lexeme.settle : Lexeme → Lexeme
  | .leaf t => .leaf t.settle
  | l => l

def Lexeme.isBroken (l : Lexeme) : Bool := l = .leaf (.error .badString)

def Lexeme.newline : Lexeme := .leaf (.whitespace [.char '\n'])

/-- Tokens behind a broken string. -/
def Lexeme.breakLine : List Lexeme → List Lexeme
  | .leaf (.whitespace w) :: ls => .leaf (.whitespace (.char '\n' :: w)) :: ls
  | ls => newline :: ls

/-- Tokens as they are read back. -/
def mend : List Lexeme → List Lexeme
  | [] => []
  | x :: xs => x.settle :: if x.isBroken then Lexeme.breakLine (mend xs) else mend xs

variable {x y : Lexeme} {xs ls : List Lexeme}

theorem spell_breakLine (ls : List Lexeme) : spell (Lexeme.breakLine ls) = .char '\n' :: spell ls := by
  unfold Lexeme.breakLine
  split <;> rfl

theorem rereadUnit_rereadUnit (u : Text) : rereadUnit (rereadUnit u) = rereadUnit u := by
  cases u with
  | nil => rfl
  | cons c s =>
    by_cases h : (c = 'e' ∨ c = 'E') ∧ (s = [] ∨ s.head? = some (.char '-'))
    · rw [rereadUnit, if_pos h, rereadUnit, if_pos ⟨.inl rfl, h.2⟩]
    · rw [rereadUnit, if_neg h, rereadUnit, if_neg h]

theorem writeUnit_rereadUnit (u : Text) : writeUnit (rereadUnit u) = writeUnit u := by
  cases u with
  | nil => rfl
  | cons c s =>
    by_cases h : (c = 'e' ∨ c = 'E') ∧ (s = [] ∨ s.head? = some (.char '-'))
    · rw [rereadUnit, if_pos h, writeUnit, writeUnit, if_pos h, if_pos ⟨.inl rfl, h.2⟩]
    · rw [rereadUnit, if_neg h]

theorem isExponentLike_rereadUnit {u : Text} (h : isExponentLike u = false) : isExponentLike (rereadUnit u) = false := by
  cases u with
  | nil => rfl
  | cons c s =>
    rw [rereadUnit]
    split
    · rename_i hc
      cases s with
      | nil => rfl
      | cons d s =>
        obtain ⟨he, hd⟩ := hc
        rcases he with rfl | rfl <;> exact h
    · exact h

theorem Leaf.write_settle (t : Leaf) : t.settle.write = t.write := by
  cases t with
  | dimension r u => rw [settle, write, write, writeUnit_rereadUnit]
  | _ => rfl

theorem Lexeme.spell_settle (hb : x.isBroken = false) : x.settle.spell = x.write := by
  cases x with
  | leaf t =>
    rw [settle, write, ← t.write_settle]
    cases t with
    | error e => cases e <;> first | rfl | cases hb
    | _ => rfl
  | _ => rfl

theorem Lexeme.eq_of_isBroken (h : x.isBroken = true) : x = .leaf (.error .badString) := by simpa [isBroken] using h

theorem spell_mend (ls : List Lexeme) : spell (mend ls) = writeTokens ls := by
  induction ls with
  | nil => rfl
  | cons x xs ih =>
    rw [mend, spell_cons, writeTokens_cons]
    by_cases hb : x.isBroken = true
    · obtain rfl := x.eq_of_isBroken hb
      rw [if_pos hb, spell_breakLine, ih]
      rfl
    · rw [if_neg hb, ih, x.spell_settle (by simpa using hb)]

theorem hasNoNul_rereadUnit {u : Text} (h : HasNoNul u) : HasNoNul (rereadUnit u) := by
  cases u with
  | nil => exact h
  | cons c s =>
    rw [rereadUnit]
    split
    · exact List.forall_mem_cons.2 ⟨by decide, (List.forall_mem_cons.1 h).2⟩
    · exact h

theorem rereadUnit_ne_nil {u : Text} (h : u ≠ []) : rereadUnit u ≠ [] := by
  obtain ⟨c, s, rfl⟩ := List.exists_cons_of_ne_nil h
  rw [rereadUnit]
  split <;> exact List.cons_ne_nil _ _

namespace Lexeme

theorem isProper_settle (h : x.IsProper) : x.settle.IsProper := by
  cases x with
  | leaf t =>
    cases t with
    | dimension r u => exact ⟨h.1, rereadUnit_ne_nil h.2.1, hasNoNul_rereadUnit h.2.2⟩
    | _ => exact h
  | _ => exact h

theorem isSettled_settle (h : x.IsProper) (hc : ∀ v, x ≠ .leaf (.comment v)) : x.settle.isSettled = true := by
  cases x with
  | leaf t =>
    cases t with
    | dimension r u => exact decide_eq_true (rereadUnit_rereadUnit u)
    | comment v => exact absurd rfl (hc v)
    | error e =>
      cases e with
      | unmatched b => cases h
      | _ => rfl
    | _ => rfl
  | _ => rfl

theorem isClear_settle {m : Text} (h : x.isClear m = true) : x.settle.isClear m = true := by
  cases x with
  | leaf t =>
    cases t with
    | dimension r u =>
      have hu : isExponentLike u = false := by simpa [isClear] using h
      simp [settle, Leaf.settle, isClear, isExponentLike_rereadUnit hu]
    | _ => exact h
  | _ => exact h

@[simp] theorem bars_settle (x : Lexeme) : x.settle.bars = x.bars := by
  cases x with
  | leaf t => cases t <;> rfl
  | _ => rfl

@[simp] theorem lead_settle (x : Lexeme) : x.settle.lead = x.lead := by
  cases x with
  | leaf t => cases t <;> rfl
  | _ => rfl

@[simp] theorem isUrlFunction_settle (x : Lexeme) : x.settle.isUrlFunction = x.isUrlFunction := by
  cases x <;> rfl

@[simp] theorem isQuoted_settle (x : Lexeme) : x.settle.isQuoted = x.isQuoted := by
  cases x with
  | leaf t => cases t <;> rfl
  | _ => rfl

@[simp] theorem tooLong?_settle (x : Lexeme) : x.settle.tooLong? = x.tooLong? := by
  cases x with
  | leaf t => cases t <;> rfl
  | _ => rfl

@[simp] theorem isBroken_settle (x : Lexeme) : x.settle.isBroken = x.isBroken := by
  cases x with
  | leaf t => cases t <;> rfl
  | _ => rfl

theorem shownBy_space_lead (h : x.IsProper) (hw : ∀ w, x ≠ .leaf (.whitespace w)) : Feature.space.shownBy x.lead = false := by
  have number {r : Text} (hr : IsNumber r) : Feature.space.shownBy r = false := by
    obtain ⟨sign, b, rfl, hs, hb⟩ := hr.exists_sign
    rcases hs with rfl | rfl | rfl
    · rw [List.nil_append, Bool.eq_false_iff]
      intro h
      obtain ⟨c, hc, hspace⟩ := (Option.any_eq_true ..).1 h
      obtain ⟨b, rfl⟩ := List.head?_eq_some_iff.1 hc
      simp only [isSpace, Bool.or_eq_true, beq_iff_eq] at hspace
      rcases hspace with (rfl | rfl) | rfl <;> rcases hb with hb | hb <;> cases hb
    · rfl
    · rfl
  cases x with
  | opening b => cases b <;> rfl
  | closing b => rfl
  | function n => rfl
  | leaf t =>
    cases t with
    | whitespace w => exact absurd rfl (hw w)
    | number r => exact number h
    | percentage r => exact number h
    | dimension r u => exact number h.1
    | literal s =>
      rw [lead]
      split
      · rfl
      · obtain ⟨-, ⟨c, rfl, hc, -⟩ | ⟨c, rfl, hc⟩ | hu⟩ := h
        · exact hc.1
        · rcases isMatcher_cases hc with rfl | rfl | rfl | rfl | rfl <;> rfl
        · simp only [List.mem_cons, List.not_mem_nil, or_false] at hu
          rcases hu with rfl | rfl | rfl <;> rfl
    | error e => cases e <;> rfl
    | _ => rfl

end Lexeme

/-- What a token of a sheet is by itself: as it is read, and no number that is too long. -/
structure Lexeme.IsSound (l : Lexeme) : Prop where
  proper : l.IsProper
  short : l.tooLong? = none

/-- How the tokens of minified text stand side by side. -/
structure Adjoins (x y : Lexeme) : Prop where
  abuts : Abuts x y
  quoted : x.isUrlFunction = true → y.isQuoted = true
  sound : y.IsSound
  kept : ∀ v, y ≠ .leaf (.comment v)

theorem Legible.isProper_head (h : Legible (x :: xs)) : x.IsProper := by
  generalize he : x :: xs = ls at h
  cases h with
  | nil => cases he
  | cut x hp hc =>
    obtain rfl := (List.cons.inj he).1
    exact hp
  | cons hp _ _ _ _ =>
    obtain rfl := (List.cons.inj he).1
    exact hp

theorem Legible.breakLine (h : Legible ls) : Legible (Lexeme.breakLine ls) := by
  unfold Lexeme.breakLine
  split
  · rename_i w ls
    generalize he : Lexeme.leaf (.whitespace w) :: ls = xs at h
    cases h with
    | nil => cases he
    | cut x => cases x <;> cases he
    | cons hp hs hc hf h =>
      obtain ⟨rfl, rfl⟩ := List.cons.inj he
      refine .cons ⟨List.cons_ne_nil _ _, List.forall_mem_cons.2 ⟨rfl, hp.2⟩⟩ rfl rfl (fun y hy => ?_) h
      exact ⟨(hf y hy).abuts, nofun, nofun⟩
  · rename_i hw
    refine .cons ⟨List.cons_ne_nil _ _, List.forall_mem_singleton.2 rfl⟩ rfl rfl (fun y hy => ?_) h
    refine ⟨List.forall_mem_singleton.2 ?_, nofun, nofun⟩
    cases ls with
    | nil =>
      obtain rfl : Lexeme.closing .curly = y := by simpa using hy
      rfl
    | cons z zs =>
      obtain rfl : z = y := by simpa using hy
      exact z.shownBy_space_lead h.isProper_head fun w he => hw w zs (by rw [he])

theorem head?_mend (ls : List Lexeme) (b : Bracket) :
    (mend ls ++ [Lexeme.closing b]).head? = (ls ++ [Lexeme.closing b]).head?.map Lexeme.settle := by
  cases ls <;> rfl

/-- Clear tokens that stand side by side as in minified text read back as their mended selves. -/
theorem legible_mend (h : List.IsChain Adjoins (x :: (ls ++ [.closing .curly]))) (hc : isClear ls = true) :
    Legible (mend ls) := by
  fun_induction isClear ls generalizing x with
  | case1 => exact .nil
  | case2 v => exact .cut (.string v) (List.isChain_cons_cons.1 h).1.sound.proper rfl
  | case3 v => exact .cut (.url v) (List.isChain_cons_cons.1 h).1.sound.proper hc
  | case4 y ys _ _ ih =>
    obtain ⟨hy, hchain⟩ := List.isChain_cons_cons.1 h
    obtain ⟨hclear, hc⟩ := Bool.and_eq_true_iff.1 hc
    have ih := ih hchain hc
    rw [mend]
    by_cases hb : y.isBroken = true
    · obtain rfl := y.eq_of_isBroken hb
      rw [if_pos hb]
      refine .cons trivial rfl rfl (fun z hz => ⟨.of_bars rfl z, nofun, fun _ => ?_⟩) ih.breakLine
      unfold Lexeme.breakLine at hz
      split at hz <;> exact ⟨_, (Option.some.inj hz).symm⟩
    · rw [if_neg hb]
      refine .cons (y.isProper_settle hy.sound.proper) (y.isSettled_settle hy.sound.proper hy.kept) ?_ (fun z hz => ?_) ih
      · rw [spell_mend]
        exact y.isClear_settle hclear
      · rw [head?_mend] at hz
        obtain ⟨w, hw, rfl⟩ := Option.map_eq_some_iff.1 hz
        have hyw := (List.isChain_cons.1 hchain).1 w hw
        refine ⟨?_, by simpa using hyw.quoted, fun he => absurd ?_ hb⟩
        · simpa [Abuts] using hyw.abuts
        · rw [← y.isBroken_settle, he]
          rfl

end Mending

end StylePrune.Css
