import Mathlib
import StylePrune.Proofs.Css.Mending

/-!
Neighbours in a slim tree. Where spacing is left out, the token before it is not carried on by the one behind it: one of
the two is a mark that begins and ends by itself.
-/

set_option autoImplicit false

namespace StylePrune.Css

/-- How the tokens of a sheet stand side by side. -/
structure Beside (x y : Lexeme) : Prop where
  meets : Meets x y
  sound : y.IsSound

/-- What is left of that where tokens are left out. -/
structure Near (x y : Lexeme) : Prop where
  abuts : Abuts x y
  sound : y.IsSound

theorem isSound_closing (b : Bracket) : (Lexeme.closing b).IsSound := ⟨trivial, rfl⟩

section Joined

variable {R S : Lexeme → Lexeme → Prop} {x z : Lexeme} {cs ds : List Component}

theorem Joined.of_append {w : Lexeme} (h : Joined R x (cs ++ ds) z) (hRS : ∀ a b, R a b → S a b) (hw : ∀ a, S a w) :
    Joined S x cs w := by
  induction cs generalizing x with
  | nil => exact hw x
  | cons c cs ih => exact ⟨hRS _ _ h.1, ih h.2⟩

theorem Joined.exists_dropWhile (f : Component → Bool) (h : Joined R x cs z) : ∃ y, Joined R y (cs.dropWhile f) z := by
  induction cs generalizing x with
  | nil => exact ⟨x, h⟩
  | cons c cs ih =>
    rw [List.dropWhile_cons]
    split
    · exact ih h.2
    · exact ⟨x, h⟩

@[simp] theorem Component.first_slim (c : Component) : c.slim.first = c.first := by cases c <;> rfl

@[simp] theorem Component.last_slim (c : Component) : c.slim.last = c.last := by cases c <;> rfl

theorem joined_slimAll : Joined R x (slimAll cs) z ↔ Joined R x cs z := by
  induction cs generalizing x with
  | nil => rfl
  | cons c cs ih => simp [slimAll, Joined, ih]

end Joined

section Gaps

variable {c d before : Component}

theorem Component.exists_of_shape (h : c.shape ≠ .plain) :
    (∃ p cs, c = .block p .curly cs) ∨
      ∃ p, ∃ m ∈ ([.char ';', .char ':', .char ',', .char '>', .char '~'] : Text), c = .leaf p (.literal [m]) := by
  cases c with
  | leaf p t =>
    cases t with
    | literal s =>
      by_contra hn
      obtain ⟨-, hn⟩ := not_or.1 hn
      refine h ?_
      have hs (m : CodePoint) (hm : m ∈ ([.char ';', .char ':', .char ',', .char '>', .char '~'] : Text)) : s ≠ [m] :=
        fun he => hn ⟨p, m, hm, by rw [he]⟩
      simp [Component.shape, hs]
    | _ => exact absurd rfl h
  | block p b cs =>
    cases b with
    | curly => exact .inl ⟨p, cs, rfl⟩
    | _ => exact absurd rfl h
  | function p name cs => exact absurd rfl h

/-- A component that takes no spacing is one mark or stands in braces: nothing carries it on, and it carries on nothing. -/
theorem bars_last_of_shape (h : c.shape ≠ .plain) : c.last.bars = [] := by
  obtain ⟨p, cs, rfl⟩ | ⟨p, m, hm, rfl⟩ := c.exists_of_shape h
  · rfl
  · simp only [List.mem_cons, List.not_mem_nil, or_false] at hm
    rcases hm with rfl | rfl | rfl | rfl | rfl <;> rfl

theorem shownBy_lead_of_shape (h : c.shape ≠ .plain) (f : Feature) : f.shownBy c.first.lead = false := by
  obtain ⟨p, cs, rfl⟩ | ⟨p, m, hm, rfl⟩ := c.exists_of_shape h
  · cases f <;> rfl
  · simp only [List.mem_cons, List.not_mem_nil, or_false] at hm
    rcases hm with rfl | rfl | rfl | rfl | rfl <;> cases f <;> rfl

/-- Where spacing means nothing, the tokens around it do not need it. -/
theorem abuts_of_isIdle {cs : List Component} (h : isIdle before c cs = true) : Abuts before.last c.first := by
  have hs : before.shape ≠ .plain ∨ c.shape ≠ .plain := by
    by_contra hn
    obtain ⟨hb, hc⟩ := not_or.1 hn
    rw [not_not] at hb hc
    simp [isIdle, Component.takesNoSpace, hb, hc] at h
  rcases hs with hb | hc
  · exact .of_bars (bars_last_of_shape hb) _
  · exact fun f _ => shownBy_lead_of_shape hc f

theorem Component.isUrlFunction_last (c : Component) : c.last.isUrlFunction = false := by
  cases c with
  | leaf p t =>
    show t.token.isUrlFunction = false
    unfold Leaf.token
    split <;> rfl
  | _ => rfl

theorem Component.ne_of_not_isTrivia (h : c.isTrivia = false) :
    (∀ w, c.first ≠ .leaf (.whitespace w)) ∧ ∀ v, c.first ≠ .leaf (.comment v) := by
  obtain ⟨-, -, hf⟩ := c.tokens_of_not h
  constructor
  · intro w he
    rw [he] at hf
    cases hf
  · intro v he
    rw [he] at hf
    cases hf

theorem Lexeme.space_not_mem_bars {x : Lexeme} (h : ∀ w, x ≠ .leaf (.whitespace w)) : Feature.space ∉ x.bars := by
  unfold bars
  split
  · exact absurd rfl (h _)
  · decide
  · decide
  · decide
  · decide
  · split <;> decide
  · unfold markBars
    split_ifs <;> decide
  · exact List.not_mem_nil

theorem Component.last_ne_whitespace (h : c.isTrivia = false) (w : Text) : c.last ≠ .leaf (.whitespace w) := by
  cases c with
  | leaf p t => exact (Component.ne_of_not_isTrivia h).1 w
  | _ => exact nofun

theorem adjoins_space (h : c.isTrivia = false) : Adjoins c.last Component.space.first := by
  refine ⟨fun f hf => ?_, by simp [c.isUrlFunction_last], ⟨⟨List.cons_ne_nil _ _, List.forall_mem_singleton.2 rfl⟩, rfl⟩, nofun⟩
  cases f with
  | space => exact absurd hf (Lexeme.space_not_mem_bars (c.last_ne_whitespace h))
  | _ => rfl

theorem space_adjoins (h : c.isTrivia = false) (hc : c.first.IsSound) : Adjoins Component.space.last c.first :=
  ⟨List.forall_mem_singleton.2 (c.first.shownBy_space_lead hc.proper (c.ne_of_not_isTrivia h).1), nofun, hc,
    (c.ne_of_not_isTrivia h).2⟩

/-- What follows a component of a slim level stands as minified text does. -/
theorem joined_spacedAfter {x : Lexeme} {b : Bracket} {cs : List Component} {gap : Bool} (hb : before.isTrivia = false)
    (h : Joined Near x cs (.closing b)) (hx : gap = false → x = before.last) :
    Joined Adjoins before.last (spacedAfter before gap cs) (.closing b) := by
  -- `x` is the token right before the rest, one that is left out where there is a gap
  induction cs generalizing before x gap with
  | nil => exact ⟨.of_lead rfl _, by simp [before.isUrlFunction_last], isSound_closing b, by simp⟩
  | cons c cs ih =>
    obtain ⟨hc, hcs⟩ := h
    by_cases ht : c.isTrivia = true
    · rw [spacedAfter, if_pos ht]
      exact ih hb hcs (by rintro ⟨⟩)
    · have hf : c.isTrivia = false := by simpa using ht
      have hrest : Joined Adjoins c.last (spacedAfter c false cs) (.closing b) := ih hf hcs fun _ => rfl
      rw [spacedAfter, if_neg ht]
      by_cases hs : (gap && !isIdle before c cs) = true
      · rw [if_pos hs]
        exact ⟨adjoins_space hb, space_adjoins hf hc.sound, hrest⟩
      · rw [if_neg hs]
        refine ⟨⟨?_, by simp [before.isUrlFunction_last], hc.sound, (c.ne_of_not_isTrivia hf).2⟩, hrest⟩
        cases gap with
        | false => exact hx rfl ▸ hc.abuts
        | true => exact abuts_of_isIdle (by simpa using hs)

end Gaps

section Slim

theorem exists_dropLoose (curly : Bool) (cs : List Component) :
    ∃ ds, cs = dropLoose curly cs ++ ds ∧ ∀ d ∈ ds, d.isLoose curly = true := by
  refine ⟨(cs.reverse.takeWhile (Component.isLoose curly)).reverse, ?_, fun d hd => ?_⟩
  · rw [dropLoose, ← List.reverse_append, List.takeWhile_append_dropWhile, List.reverse_reverse]
  · exact List.mem_takeWhile_imp (List.mem_reverse.1 hd)

theorem Component.isLoose_of_isQuoted {c : Component} (h : c.first.isQuoted = true) (curly : Bool) : c.isLoose curly = false := by
  cases c with
  | leaf p t =>
    cases t with
    | string v closed => cases curly <;> rfl
    | error e => cases e <;> cases curly <;> rfl
    | _ => cases h
  | _ => cases h

variable {x z : Lexeme} {cs : List Component}

theorem Quotes.dropLoose (h : Quotes x cs z) (curly : Bool) : Quotes x (dropLoose curly cs) z := by
  intro hx
  obtain ⟨c, hc, hq⟩ := h hx
  obtain ⟨ds, hcs, hds⟩ := exists_dropLoose curly cs
  generalize StylePrune.Css.dropLoose curly cs = es at hcs ⊢
  subst hcs
  refine ⟨c, ?_, hq⟩
  rw [List.dropWhile_append] at hc
  split at hc
  · have hl := hds c ((List.dropWhile_suffix _).subset (List.mem_of_mem_head? hc))
    rw [c.isLoose_of_isQuoted hq] at hl
    cases hl
  · rename_i hn
    rwa [List.head?_append_of_ne_nil _ (by simpa using hn)] at hc

theorem joined_spaced (h : Text ⊕ Bracket) {b : Bracket} (hj : Joined Beside (openerOf h) cs (.closing b))
    (hq : Quotes (openerOf h) cs (.closing b)) (curly : Bool) :
    Joined Adjoins (openerOf h) (spaced (dropLoose curly cs)) (.closing b) := by
  have hbars : (openerOf h).bars = [] := by cases h <;> rfl
  replace hq := hq.dropLoose curly
  obtain ⟨ds, hcs, -⟩ := exists_dropLoose curly cs
  generalize dropLoose curly cs = es at hcs hq ⊢
  subst hcs
  have hn : Joined Near (openerOf h) es (.closing b) :=
    hj.of_append (fun _ _ hab => ⟨hab.meets.1, hab.sound⟩) fun a => ⟨.of_lead rfl a, isSound_closing b⟩
  obtain ⟨y, hy⟩ := hn.exists_dropWhile Component.isTrivia
  rw [spaced]
  unfold Quotes at hq
  cases hd : es.dropWhile Component.isTrivia with
  | nil =>
    rw [hd] at hq
    exact ⟨.of_bars hbars _, fun hx => by simpa using hq hx, isSound_closing b, by simp⟩
  | cons c cs =>
    rw [hd] at hq hy
    have hc : c.isTrivia = false := by
      have hne : es.dropWhile Component.isTrivia ≠ [] := by simp [hd]
      simpa [hd] using List.head_dropWhile_not Component.isTrivia hne
    refine ⟨⟨.of_bars hbars _, fun hx => ?_, hy.1.sound, (c.ne_of_not_isTrivia hc).2⟩,
      joined_spacedAfter hc hy.2 fun _ => rfl⟩
    obtain ⟨d, hd, hquoted⟩ := hq hx
    obtain rfl := Option.some.inj hd
    exact hquoted

theorem mem_of_mem_spacedAfter {before d : Component} {gap : Bool} (h : d ∈ spacedAfter before gap cs) :
    d ∈ cs ∨ d = Component.space := by
  induction cs generalizing before gap with
  | nil => cases h
  | cons c cs ih =>
    rw [spacedAfter] at h
    split at h
    · exact (ih h).imp_left (List.mem_cons_of_mem c)
    · rcases List.mem_append.1 h with h | h
      · split at h
        · exact .inr (List.mem_singleton.1 h)
        · cases h
      · rcases List.mem_cons.1 h with rfl | h
        · exact .inl List.mem_cons_self
        · exact (ih h).imp_left (List.mem_cons_of_mem c)

theorem mem_of_mem_spaced {d : Component} {curly : Bool} (h : d ∈ spaced (dropLoose curly cs)) :
    d ∈ cs ∨ d = Component.space := by
  obtain ⟨ds, hcs, -⟩ := exists_dropLoose curly cs
  have hsub : ∀ e ∈ (dropLoose curly cs).dropWhile Component.isTrivia, e ∈ cs := fun e he => by
    rw [hcs]
    exact List.mem_append_left _ ((List.dropWhile_suffix _).subset he)
  rw [spaced] at h
  split at h
  · cases h
  · rename_i c es he
    rw [he] at hsub
    rcases List.mem_cons.1 h with rfl | h
    · exact .inl (hsub d List.mem_cons_self)
    · exact (mem_of_mem_spacedAfter h).imp_left fun h => hsub d (List.mem_cons_of_mem c h)

variable {P Q : Lexeme → List Component → Lexeme → Prop}

theorem LevelsAll.spaced (h : LevelsAll Q cs) (curly : Bool) : LevelsAll Q (spaced (dropLoose curly cs)) := by
  refine levelsAll_iff.2 fun d hd => ?_
  rcases mem_of_mem_spaced hd with hd | rfl
  · exact levelsAll_iff.1 h d hd
  · trivial

/-- What slimming makes of a level, it makes of each level. -/
def Slims (P Q : Lexeme → List Component → Lexeme → Prop) : Prop :=
  ∀ h cs curly, P (openerOf h) cs (.closing (closerOf h)) →
    Q (openerOf h) (spaced (dropLoose curly (slimAll cs))) (.closing (closerOf h))

mutual
theorem Component.levels_slim (hPQ : Slims P Q) (c : Component) (h : c.Levels P) : c.slim.Levels Q := by
  cases c with
  | leaf p t => trivial
  | block p b cs => exact ⟨hPQ (.inr b) cs _ h.1, (levelsAll_slim hPQ cs h.2).spaced _⟩
  | function p name cs => exact ⟨hPQ (.inl name) cs _ h.1, (levelsAll_slim hPQ cs h.2).spaced _⟩

theorem levelsAll_slim (hPQ : Slims P Q) (cs : List Component) (h : LevelsAll P cs) : LevelsAll Q (slimAll cs) := by
  cases cs with
  | nil => trivial
  | cons c cs => exact ⟨c.levels_slim hPQ h.1, levelsAll_slim hPQ cs h.2⟩
end

theorem quotes_slimAll : Quotes x (slimAll cs) z ↔ Quotes x cs z := by
  have hd : (slimAll cs).dropWhile Component.isTrivia = slimAll (cs.dropWhile Component.isTrivia) := by
    simp [slimAll_eq_map, List.dropWhile_map, Function.comp_def]
  unfold Quotes
  rw [hd]
  cases cs.dropWhile Component.isTrivia <;> simp [slimAll]

theorem slims_joined : Slims (fun x cs z => Joined Beside x cs z ∧ Quotes x cs z) (Joined Adjoins) :=
  fun h _ curly hcs => joined_spaced h (joined_slimAll.2 hcs.1) (quotes_slimAll.2 hcs.2) curly

@[simp] theorem Component.stray?_slim (c : Component) : c.slim.stray? = c.stray? := by cases c <;> rfl

theorem slims_fits : Slims Fits Fits := by
  intro h cs curly hf d hd
  rcases mem_of_mem_spaced hd with hd | rfl
  · rw [slimAll_eq_map] at hd
    obtain ⟨c, hc, rfl⟩ := List.mem_map.1 hd
    rw [c.stray?_slim]
    exact hf c hc
  · exact nofun

theorem levelsAll_fits_slimLevel (h : LevelsAll Fits cs) (curly : Bool) : LevelsAll Fits (slimLevel curly cs) :=
  (levelsAll_slim slims_fits cs h).spaced curly

/-- The tokens of a slim sheet stand side by side as those of minified text. -/
theorem isChain_slimLevel (hc : List.IsChain Beside (.opening .curly :: (tokensAll cs ++ [.closing .curly])))
    (hq : QuotesUrls (tokensAll cs)) (curly : Bool) :
    List.IsChain Adjoins (.opening .curly :: (tokensAll (slimLevel curly cs) ++ [.closing .curly])) := by
  obtain ⟨hj, hl, -⟩ := (isChain_tokensAll cs _ _ []).1 hc
  have hlevels : LevelsAll Quotes cs := by
    rw [← List.append_nil (tokensAll cs)] at hq
    exact (levelsAll_quotes cs hq).1
  refine (isChain_tokensAll _ _ _ []).2 ⟨?_, (levelsAll_slim slims_joined cs (hl.and hlevels)).spaced curly, by simp⟩
  exact slims_joined (.inr .curly) cs curly ⟨hj, nofun⟩

end Slim

end StylePrune.Css
