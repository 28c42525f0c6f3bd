import Mathlib
import StylePrune.Proofs.Css.Neighbours
import StylePrune.Proofs.Css.Proper
import StylePrune.Proofs.Css.Slim

/-!
Trees and their tokens. The tokens of a tree, each level closed, nest to that tree again, and what holds of any two
neighbours among them holds on each level between its opening token, its components and its closing token.
-/

set_option autoImplicit false

namespace StylePrune.Css

/-- The token of a leaf. An error that stands for an unmatched bracket was that bracket. -/
def Leaf.token : Leaf → Lexeme
  | .error (.unmatched b) => .closing b
  | t => .leaf t

mutual
/-- The tokens of a component, all its levels closed. -/
def Component.tokens : Component → List Lexeme
  | .leaf _ t => [t.token]
  | .block _ b cs => .opening b :: (tokensAll cs ++ [.closing b])
  | .function _ name cs => .function name :: (tokensAll cs ++ [.closing .round])

def tokensAll : List Component → List Lexeme
  | [] => []
  | c :: cs => c.tokens ++ tokensAll cs
end

namespace Component

def first : Component → Lexeme
  | .leaf _ t => t.token
  | .block _ b _ => .opening b
  | .function _ name _ => .function name

def last : Component → Lexeme
  | .leaf _ t => t.token
  | .block _ b _ => .closing b
  | .function .. => .closing .round

end Component

@[simp] theorem tokensAll_nil : tokensAll [] = [] := rfl

@[simp] theorem tokensAll_cons (c : Component) (cs : List Component) : tokensAll (c :: cs) = c.tokens ++ tokensAll cs := rfl

@[simp] theorem tokensAll_append (cs ds : List Component) : tokensAll (cs ++ ds) = tokensAll cs ++ tokensAll ds := by
  induction cs with
  | nil => rfl
  | cons c cs ih => simp [ih]

theorem Leaf.token_of_isProper {t : Leaf} (h : t.IsProper) : t.token = .leaf t := by
  unfold token
  split
  · cases h
  · rfl

theorem tokens_component (p : Position) (h : Text ⊕ Bracket) (cs : List Component) :
    ((Level.mk p h []).component cs).tokens = openerOf h :: (tokensAll cs ++ [.closing (closerOf h)]) := by
  cases h <;> rfl

/-- What stands side by side on a level: its opening token, its components and its closing token. -/
def Joined (R : Lexeme → Lexeme → Prop) (x : Lexeme) : List Component → Lexeme → Prop
  | [], z => R x z
  | c :: cs, z => R x c.first ∧ Joined R c.last cs z

mutual
/-- What a relation between an opening token, the level behind it and the token that closes it says inside a component. -/
def Component.Levels (P : Lexeme → List Component → Lexeme → Prop) : Component → Prop
  | .leaf .. => True
  | .block _ b cs => P (.opening b) cs (.closing b) ∧ LevelsAll P cs
  | .function _ name cs => P (.function name) cs (.closing .round) ∧ LevelsAll P cs

def LevelsAll (P : Lexeme → List Component → Lexeme → Prop) : List Component → Prop
  | [] => True
  | c :: cs => c.Levels P ∧ LevelsAll P cs
end

theorem levelsAll_iff {P : Lexeme → List Component → Lexeme → Prop} {cs : List Component} :
    LevelsAll P cs ↔ ∀ c ∈ cs, c.Levels P := by
  induction cs with
  | nil => simp [LevelsAll]
  | cons c cs ih => simp [LevelsAll, ih]

section And

variable {P Q : Lexeme → List Component → Lexeme → Prop}

mutual
theorem Component.Levels.and {c : Component} (hP : c.Levels P) (hQ : c.Levels Q) :
    c.Levels fun x cs z => P x cs z ∧ Q x cs z := by
  cases c with
  | leaf p t => trivial
  | block p b cs => exact ⟨⟨hP.1, hQ.1⟩, LevelsAll.and hP.2 hQ.2⟩
  | function p name cs => exact ⟨⟨hP.1, hQ.1⟩, LevelsAll.and hP.2 hQ.2⟩

theorem LevelsAll.and {cs : List Component} (hP : LevelsAll P cs) (hQ : LevelsAll Q cs) :
    LevelsAll (fun x cs z => P x cs z ∧ Q x cs z) cs := by
  cases cs with
  | nil => trivial
  | cons c cs => exact ⟨Component.Levels.and hP.1 hQ.1, LevelsAll.and hP.2 hQ.2⟩
end

end And

section Chains

variable {R : Lexeme → Lexeme → Prop}

mutual
theorem Component.isChain_tokens (c : Component) (x : Lexeme) (ys : List Lexeme) :
    List.IsChain R (x :: (c.tokens ++ ys)) ↔ R x c.first ∧ c.Levels (Joined R) ∧ List.IsChain R (c.last :: ys) := by
  cases c with
  | leaf p t => simp [Component.tokens, Component.first, Component.last, Component.Levels]
  | block p b cs =>
    have h := isChain_tokensAll cs (.opening b) (.closing b) ys
    simp [Component.tokens, Component.first, Component.last, Component.Levels, h, and_assoc]
  | function p name cs =>
    have h := isChain_tokensAll cs (.function name) (.closing .round) ys
    simp [Component.tokens, Component.first, Component.last, Component.Levels, h, and_assoc]

/-- Neighbours among the tokens of a level are neighbours on the level or inside one of its components. -/
theorem isChain_tokensAll (cs : List Component) (x z : Lexeme) (ys : List Lexeme) :
    List.IsChain R (x :: (tokensAll cs ++ z :: ys)) ↔ Joined R x cs z ∧ LevelsAll (Joined R) cs ∧ List.IsChain R (z :: ys) := by
  cases cs with
  | nil => simp [Joined, LevelsAll]
  | cons c cs =>
    have hc := c.isChain_tokens x (tokensAll cs ++ z :: ys)
    have h := isChain_tokensAll cs c.last z ys
    rw [tokensAll_cons, List.append_assoc, hc, h, Joined, LevelsAll]
    tauto
end

end Chains

section Quotes

/-- A function that would be a URL otherwise has a string for its first argument. -/
def Quotes (x : Lexeme) (cs : List Component) (_ : Lexeme) : Prop :=
  x.isUrlFunction = true → ∃ c ∈ (cs.dropWhile Component.isTrivia).head?, c.first.isQuoted = true

theorem Component.tokens_of_isTrivia {c : Component} (h : c.isTrivia = true) :
    c.tokens = [c.first] ∧ c.first.isTrivia = true := by
  cases c with
  | leaf p t => cases t <;> first | exact ⟨rfl, rfl⟩ | cases h
  | _ => cases h

theorem Component.tokens_of_not {c : Component} (h : c.isTrivia = false) :
    ∃ ls, c.tokens = c.first :: ls ∧ c.first.isTrivia = false := by
  cases c with
  | leaf p t =>
    refine ⟨[], rfl, ?_⟩
    cases t with
    | error e => cases e <;> rfl
    | _ => first | rfl | cases h
  | _ => exact ⟨_, rfl, rfl⟩

/-- The first token of a level that is no trivia is the first one of a component that is none, or stands behind the level. -/
theorem head?_core_tokensAll (cs : List Component) {z : Lexeme} (hz : z.isTrivia = false) (ys : List Lexeme) :
    (core (tokensAll cs ++ z :: ys)).head? = some (((cs.dropWhile Component.isTrivia).head?.map Component.first).getD z) := by
  induction cs with
  | nil => simp [core, hz]
  | cons c cs ih =>
    by_cases hc : c.isTrivia = true
    · obtain ⟨ht, hf⟩ := c.tokens_of_isTrivia hc
      rw [tokensAll_cons, ht, List.append_assoc, List.singleton_append, core_cons hf, ih, List.dropWhile_cons_of_pos hc]
    · obtain ⟨ls, ht, hf⟩ := c.tokens_of_not (by simpa using hc)
      rw [tokensAll_cons, ht, List.dropWhile_cons_of_neg hc]
      simp [core, hf]

theorem quotes_of_quotesUrls {x : Lexeme} {cs : List Component} {b : Bracket} {ys : List Lexeme}
    (h : QuotesUrls (x :: (tokensAll cs ++ .closing b :: ys))) (z : Lexeme) : Quotes x cs z := by
  intro hx
  obtain ⟨y, hy, hq⟩ := h.1 hx
  rw [head?_core_tokensAll cs rfl, Option.mem_def, Option.some.injEq] at hy
  cases hd : (cs.dropWhile Component.isTrivia).head? with
  | none =>
    rw [hd] at hy
    subst hy
    cases hq
  | some c =>
    rw [hd] at hy
    subst hy
    exact ⟨c, rfl, hq⟩

mutual
theorem Component.levels_quotes (c : Component) {ys : List Lexeme} (h : QuotesUrls (c.tokens ++ ys)) :
    c.Levels Quotes ∧ QuotesUrls ys := by
  cases c with
  | leaf p t => exact ⟨trivial, h.2⟩
  | block p b cs =>
    simp only [Component.tokens, List.cons_append, List.append_assoc] at h
    obtain ⟨hcs, hys⟩ := levelsAll_quotes cs h.2
    exact ⟨⟨quotes_of_quotesUrls h _, hcs⟩, hys.2⟩
  | function p name cs =>
    simp only [Component.tokens, List.cons_append, List.append_assoc] at h
    obtain ⟨hcs, hys⟩ := levelsAll_quotes cs h.2
    exact ⟨⟨quotes_of_quotesUrls h _, hcs⟩, hys.2⟩

theorem levelsAll_quotes (cs : List Component) {ys : List Lexeme} (h : QuotesUrls (tokensAll cs ++ ys)) :
    LevelsAll Quotes cs ∧ QuotesUrls ys := by
  cases cs with
  | nil => exact ⟨trivial, h⟩
  | cons c cs =>
    rw [tokensAll_cons, List.append_assoc] at h
    obtain ⟨hc, h⟩ := c.levels_quotes h
    obtain ⟨hcs, hys⟩ := levelsAll_quotes cs h
    exact ⟨⟨hc, hcs⟩, hys⟩
end

end Quotes

section Strays

/-- The bracket of an error that stands for one. -/
def Component.stray? : Component → Option Bracket
  | .leaf _ (.error (.unmatched b)) => some b
  | _ => none

/-- The bracket that closes a level is no error on it. -/
def Fits (_ : Lexeme) (cs : List Component) (z : Lexeme) : Prop := ∀ c ∈ cs, ∀ b ∈ c.stray?, z ≠ .closing b

theorem stray?_component (l : Level) (cs : List Component) : (l.component cs).stray? = none := by
  obtain ⟨p, h, before⟩ := l
  cases h <;> rfl

theorem levels_component {P : Lexeme → List Component → Lexeme → Prop} (l : Level) (cs : List Component) :
    (l.component cs).Levels P ↔ P (openerOf l.head) cs (.closing l.closer) ∧ LevelsAll P cs := by
  obtain ⟨p, h, before⟩ := l
  cases h <;> rfl

mutual
theorem Component.foldl_tokens (c : Component) (h : c.Levels Fits) {n : Nesting} (hs : ∀ b ∈ c.stray?, n.closer? ≠ some b) :
    (c.tokens.map (Position.first, ·)).foldl Nesting.step n = n.addAll [c.placeless] := by
  cases c with
  | leaf p t =>
    unfold Component.tokens Leaf.token
    split
    · exact Nesting.step_stray (hs _ rfl) _
    · exact Nesting.step_leaf n _ t
  | block p b cs =>
    have hcs := foldl_tokensAll cs h.2 (n := n.openLevel .first (.inr b)) fun c hc b' hb' => by
      rw [Nesting.closer_openLevel]
      rintro ⟨⟩
      exact h.1 c hc _ hb' rfl
    have hclose := n.step_closer .first .first (.inr b) (placelessAll cs)
    rw [Component.tokens, List.map_cons, List.foldl_cons, List.map_append, List.foldl_append]
    exact (congrArg (Nesting.step · (.first, .closing b)) hcs).trans hclose
  | function p name cs =>
    have hcs := foldl_tokensAll cs h.2 (n := n.openLevel .first (.inl name)) fun c hc b' hb' => by
      rw [Nesting.closer_openLevel]
      rintro ⟨⟩
      exact h.1 c hc _ hb' rfl
    have hclose := n.step_closer .first .first (.inl name) (placelessAll cs)
    rw [Component.tokens, List.map_cons, List.foldl_cons, List.map_append, List.foldl_append]
    exact (congrArg (Nesting.step · (.first, .closing .round)) hcs).trans hclose

theorem foldl_tokensAll (cs : List Component) (h : LevelsAll Fits cs) {n : Nesting}
    (hs : ∀ c ∈ cs, ∀ b ∈ c.stray?, n.closer? ≠ some b) :
    ((tokensAll cs).map (Position.first, ·)).foldl Nesting.step n = n.addAll (placelessAll cs) := by
  cases cs with
  | nil => rfl
  | cons c cs =>
    have hc := c.foldl_tokens h.1 (hs c List.mem_cons_self)
    have hcs := foldl_tokensAll cs h.2 (n := n.addAll [c.placeless]) fun d hd => hs d (List.mem_cons_of_mem c hd)
    rw [tokensAll_cons, List.map_append, List.foldl_append, hc, hcs, ← Nesting.addAll_append]
    rfl
end

/-- The tokens of a tree nest to the tree. -/
theorem values_tokensAll {cs : List Component} (h : LevelsAll Fits cs) : values (tokensAll cs) = placelessAll cs := by
  have hs : ∀ c ∈ cs, ∀ b ∈ c.stray?, Nesting.start.closer? ≠ some b := by simp [Nesting.closer?, Nesting.start]
  rw [values, nest, foldl_tokensAll cs h hs]
  simp [Nesting.start, Nesting.addAll, Nesting.finish, Nesting.closeAll]

namespace Nesting

def openTokens : List Level → List Lexeme
  | [] => []
  | l :: ls => openTokens ls ++ tokensAll l.before.reverse ++ [openerOf l.head]

/-- The tokens that made a nesting. -/
def tokens (n : Nesting) : List Lexeme := openTokens n.levels ++ tokensAll n.current.reverse

theorem tokens_add (n : Nesting) (c : Component) : (n.add c).tokens = n.tokens ++ c.tokens := by
  simp [add, tokens]

theorem tokens_openLevel (n : Nesting) (p : Position) (h : Text ⊕ Bracket) :
    (n.openLevel p h).tokens = n.tokens ++ [openerOf h] := by
  simp [openLevel, tokens, openTokens]

theorem tokens_step (n : Nesting) (p : Position) {l : Lexeme} (hl : l.IsProper) : (n.step (p, l)).tokens = n.tokens ++ [l] := by
  cases l with
  | leaf t => rw [step, tokens_add, Component.tokens, t.token_of_isProper hl]
  | opening b => exact n.tokens_openLevel p (.inr b)
  | function name => exact n.tokens_openLevel p (.inl name)
  | closing b =>
    by_cases hb : n.closer? = some b
    · obtain ⟨_ | ⟨l, ls⟩, cs⟩ := n
      · cases hb
      · obtain ⟨q, h, before⟩ := l
        obtain rfl : closerOf h = b := by cases h <;> exact Option.some.inj hb
        have hs := (Nesting.mk ls before).step_closer q p h cs.reverse
        have hn : ((Nesting.mk ls before).openLevel q h).addAll cs.reverse = ⟨⟨q, h, before⟩ :: ls, cs⟩ := by
          simp [openLevel, addAll]
        rw [hn] at hs
        have hadd := (Nesting.mk ls before).tokens_add ((Level.mk q h []).component cs.reverse)
        rw [hs]
        refine hadd.trans ?_
        simp [tokens, openTokens, tokens_component]
    · rw [step_stray hb]
      exact n.tokens_add _

theorem tokensAll_finish (n : Nesting) :
    tokensAll n.finish = n.tokens ++ n.levels.map fun l => .closing l.closer := by
  obtain ⟨ls, cs⟩ := n
  simp only [finish]
  induction ls generalizing cs with
  | nil => simp [closeAll, tokens, openTokens]
  | cons l ls ih =>
    rw [closeAll, ih]
    obtain ⟨p, h, before⟩ := l
    cases h <;> simp [tokens, openTokens, Level.component, Component.tokens, openerOf, Level.closer]

/-- No level holds its own closing bracket as an error. -/
def Sound : List Level → List Component → Prop
  | [], cs => LevelsAll Fits cs
  | l :: ls, cs => LevelsAll Fits cs ∧ (∀ c ∈ cs, ∀ b ∈ c.stray?, l.closer ≠ b) ∧ Sound ls l.before

theorem Sound.add {ls : List Level} {cs : List Component} (h : Sound ls cs) {c : Component} (hc : c.Levels Fits)
    (hs : ∀ b ∈ c.stray?, ∀ l ∈ ls.head?, l.closer ≠ b) : Sound ls (c :: cs) := by
  cases ls with
  | nil => exact ⟨hc, h⟩
  | cons l ls => exact ⟨⟨hc, h.1⟩, List.forall_mem_cons.2 ⟨fun b hb => hs b hb l rfl, h.2.1⟩, h.2.2⟩

theorem Sound.component {l : Level} {ls : List Level} {cs : List Component} (h : Sound (l :: ls) cs) :
    Sound ls (l.component cs.reverse :: l.before) := by
  refine h.2.2.add ((levels_component l _).2 ⟨fun c hc b hb he => ?_, ?_⟩) (by simp [stray?_component])
  · exact h.2.1 c (List.mem_reverse.1 hc) b hb (Lexeme.closing.inj he)
  · exact levelsAll_iff.2 fun c hc => levelsAll_iff.1 h.1 c (List.mem_reverse.1 hc)

theorem Sound.step {n : Nesting} (h : Sound n.levels n.current) (p : Position) {l : Lexeme} (hl : l.IsProper) :
    Sound (n.step (p, l)).levels (n.step (p, l)).current := by
  have openLevel (head : Text ⊕ Bracket) : Sound (n.openLevel p head).levels (n.openLevel p head).current :=
    ⟨trivial, List.forall_mem_nil _, h⟩
  cases l with
  | leaf t =>
    refine h.add trivial ?_
    unfold Component.stray?
    split
    · rename_i heq
      obtain ⟨-, rfl⟩ := Component.leaf.inj heq
      cases hl
    · nofun
  | opening b => exact openLevel (.inr b)
  | function name => exact openLevel (.inl name)
  | closing b =>
    obtain ⟨_ | ⟨l, ls⟩, cs⟩ := n
    · exact h.add (c := .leaf p (.error (.unmatched b))) trivial nofun
    · simp only [Nesting.step]
      split
      · exact h.component
      · rename_i hb
        refine h.add (c := .leaf p (.error (.unmatched b))) trivial ?_
        rintro _ ⟨⟩ _ ⟨⟩
        exact hb

theorem Sound.levelsAll_finish {n : Nesting} (h : Sound n.levels n.current) : LevelsAll Fits n.finish := by
  obtain ⟨ls, cs⟩ := n
  simp only [finish]
  induction ls generalizing cs with
  | nil => exact levelsAll_iff.2 fun c hc => levelsAll_iff.1 h c (List.mem_reverse.1 hc)
  | cons l ls ih => exact ih _ h.component

end Nesting

variable {ts : List (Position × Lexeme)}

theorem foldl_step_spec (h : ∀ t ∈ ts, t.2.IsProper) :
    (ts.foldl Nesting.step .start).tokens = ts.map Prod.snd ∧
      Nesting.Sound (ts.foldl Nesting.step .start).levels (ts.foldl Nesting.step .start).current := by
  induction ts using List.reverseRecOn with
  | nil => exact ⟨rfl, trivial⟩
  | append_singleton ts t ih =>
    obtain ⟨hts, ht⟩ := List.forall_mem_append.1 h
    obtain ⟨htokens, hs⟩ := ih hts
    have ht := ht t (List.mem_singleton.2 rfl)
    rw [List.foldl_append, List.foldl_cons, List.foldl_nil]
    exact ⟨by rw [Nesting.tokens_step _ _ ht, htokens, List.map_append]; rfl, hs.step _ ht⟩

/-- Nested tokens are those of the tree, up to the brackets that close what is left open. -/
theorem exists_tokensAll_nest (h : ∀ t ∈ ts, t.2.IsProper) :
    ∃ bs : List Bracket, tokensAll (nest ts) = ts.map Prod.snd ++ bs.map .closing := by
  refine ⟨(ts.foldl Nesting.step .start).levels.map Level.closer, ?_⟩
  rw [nest, Nesting.tokensAll_finish, (foldl_step_spec h).1, List.map_map]
  rfl

theorem levelsAll_fits_nest (h : ∀ t ∈ ts, t.2.IsProper) : LevelsAll Fits (nest ts) :=
  (foldl_step_spec h).2.levelsAll_finish

end Strays

end StylePrune.Css
