import Mathlib
import StylePrune.Proofs.Css.Adjacency

/-!
Slim trees are slim already. What comes back of a slim tree, with a newline behind each broken string, slims to the same tree.
-/

set_option autoImplicit false

namespace StylePrune.Css

namespace Component

def isBroken : Component → Bool
  | .leaf _ (.error .badString) => true
  | _ => false

def newline : Component := .leaf .first (.whitespace [.char '\n'])

end Component

/-- Components behind a broken string. -/
def breakLine : List Component → List Component
  | .leaf p (.whitespace w) :: cs => .leaf p (.whitespace (.char '\n' :: w)) :: cs
  | cs => .newline :: cs

def breakAfter (before : Component) (cs : List Component) : List Component := if before.isBroken then breakLine cs else cs

/-- A level with its broken strings ended by newlines. -/
def breakLines : List Component → List Component
  | [] => []
  | c :: cs => c :: breakAfter c (breakLines cs)

mutual
/-- A component as it is read back. -/
def Component.mend : Component → Component
  | .leaf p t => .leaf p t.settle
  | .block p b cs => .block p b (breakLines (mendAll cs))
  | .function p name cs => .function p name (breakLines (mendAll cs))

def mendAll : List Component → List Component
  | [] => []
  | c :: cs => c.mend :: mendAll cs
end

mutual
/-- A component with its units spelled as they are read back. -/
def Component.settle : Component → Component
  | .leaf p t => .leaf p t.settle
  | .block p b cs => .block p b (settleAll cs)
  | .function p name cs => .function p name (settleAll cs)

def settleAll : List Component → List Component
  | [] => []
  | c :: cs => c.settle :: settleAll cs
end

theorem mendAll_eq_map (cs : List Component) : mendAll cs = cs.map Component.mend := by
  induction cs with
  | nil => rfl
  | cons c cs ih => rw [mendAll, List.map_cons, ih]

theorem settleAll_eq_map (cs : List Component) : settleAll cs = cs.map Component.settle := by
  induction cs with
  | nil => rfl
  | cons c cs ih => rw [settleAll, List.map_cons, ih]

section Tokens

theorem Leaf.token_settle (t : Leaf) : t.settle.token = t.token.settle := by
  cases t with
  | error e => cases e <;> rfl
  | _ => rfl

theorem Leaf.isBroken_token (p : Position) (t : Leaf) : t.token.isBroken = (Component.leaf p t).isBroken := by
  cases t with
  | error e => cases e <;> rfl
  | _ => rfl

theorem tokensAll_breakLine (cs : List Component) : tokensAll (breakLine cs) = Lexeme.breakLine (tokensAll cs) := by
  cases cs with
  | nil => rfl
  | cons c cs =>
    cases c with
    | leaf p t =>
      cases t with
      | error e => cases e <;> rfl
      | _ => rfl
    | _ => rfl

theorem breakLine_append_closing (xs : List Lexeme) (b : Bracket) (ys : List Lexeme) :
    Lexeme.breakLine (xs ++ .closing b :: ys) = Lexeme.breakLine xs ++ .closing b :: ys := by
  cases xs with
  | nil => rfl
  | cons x xs =>
    cases x with
    | leaf t => cases t <;> rfl
    | _ => rfl

theorem mend_append_closing (xs : List Lexeme) (b : Bracket) (ys : List Lexeme) :
    mend (xs ++ .closing b :: ys) = mend xs ++ .closing b :: mend ys := by
  induction xs with
  | nil => rfl
  | cons x xs ih =>
    rw [List.cons_append, mend, mend, ih, breakLine_append_closing]
    split <;> rfl

mutual
theorem Component.mend_tokens (c : Component) (ys : List Lexeme) :
    Css.mend (c.tokens ++ ys) = c.mend.tokens ++
      if c.isBroken then Lexeme.breakLine (Css.mend ys) else Css.mend ys := by
  cases c with
  | leaf p t =>
    rw [Component.tokens, List.singleton_append, Css.mend, t.isBroken_token p, ← t.token_settle]
    rfl
  | block p b cs =>
    have h := mend_tokensAll cs
    rw [Component.tokens, List.cons_append, List.append_assoc, List.singleton_append, Css.mend, mend_append_closing, h]
    simp [Component.mend, Component.tokens, Component.isBroken, Lexeme.isBroken, Lexeme.settle]
  | function p name cs =>
    have h := mend_tokensAll cs
    rw [Component.tokens, List.cons_append, List.append_assoc, List.singleton_append, Css.mend, mend_append_closing, h]
    simp [Component.mend, Component.tokens, Component.isBroken, Lexeme.isBroken, Lexeme.settle]

/-- The tokens of a tree come back as those of the tree that comes back. -/
theorem mend_tokensAll (cs : List Component) : Css.mend (tokensAll cs) = tokensAll (breakLines (mendAll cs)) := by
  cases cs with
  | nil => rfl
  | cons c cs =>
    have hc := c.mend_tokens (tokensAll cs)
    have h := mend_tokensAll cs
    have hb : c.mend.isBroken = c.isBroken := by
      cases c with
      | leaf p t => cases t <;> rfl
      | _ => rfl
    rw [tokensAll_cons, hc, h, mendAll, breakLines, breakAfter, tokensAll_cons, hb, ← tokensAll_breakLine]
    split <;> rfl
end

end Tokens

theorem breakLine_cons_of_not {c : Component} (h : ∀ p w, c ≠ .leaf p (.whitespace w)) (cs : List Component) :
    breakLine (c :: cs) = .newline :: c :: cs := by
  unfold breakLine
  split
  · rename_i he
    exact absurd (List.cons.inj he).1 (h _ _)
  · rfl

theorem Component.ne_whitespace_of_not {c : Component} (h : c.isTrivia = false) (p : Position) (w : Text) :
    c ≠ .leaf p (.whitespace w) := by
  rintro rfl
  cases h

/-- A map of components that keeps what slimming looks at. -/
structure Keeps (f : Component → Component) : Prop where
  shape : ∀ c, (f c).shape = c.shape
  trivia : ∀ c, (f c).isTrivia = c.isTrivia
  broken : ∀ c, (f c).isBroken = c.isBroken
  whitespace : ∀ {c p w}, f c = .leaf p (.whitespace w) ↔ c = .leaf p (.whitespace w)

namespace Keeps

variable {f : Component → Component}

theorem isIdle_map (hf : Keeps f) (before c : Component) (cs : List Component) :
    isIdle (f before) (f c) (cs.map f) = isIdle before c cs := by
  have hd (cs : List Component) : inDeclaration (cs.map f) = inDeclaration cs := by
    induction cs with
    | nil => rfl
    | cons c cs ih => rw [List.map_cons, inDeclaration, inDeclaration, ih, hf.shape]
  rw [isIdle, isIdle, Component.takesNoSpace, Component.takesNoSpace, Component.takesNoSpace, Component.takesNoSpace,
    ← List.map_cons, hd, hf.shape, hf.shape]

theorem spacedAfter_map (hf : Keeps f) (before : Component) (gap : Bool) (cs : List Component) :
    spacedAfter (f before) gap (cs.map f) = (spacedAfter before gap cs).map f := by
  induction cs generalizing before gap with
  | nil => rfl
  | cons c cs ih =>
    have hspace : f Component.space = Component.space := hf.whitespace.2 rfl
    rw [List.map_cons, spacedAfter, spacedAfter, hf.trivia, hf.isIdle_map, ih, ih]
    split
    · rfl
    · split <;> simp [hspace]

theorem spaced_map (hf : Keeps f) (cs : List Component) : spaced (cs.map f) = (spaced cs).map f := by
  induction cs with
  | nil => rfl
  | cons c cs ih =>
    by_cases hc : c.isTrivia = true
    · rw [List.map_cons, spaced_cons_of_isTrivia (by rwa [hf.trivia]), ih, spaced_cons_of_isTrivia hc]
    · have hn : c.isTrivia = false := by simpa using hc
      rw [List.map_cons, spaced_cons_of_not (by rwa [hf.trivia]), hf.spacedAfter_map, spaced_cons_of_not hn, List.map_cons]

theorem dropLoose_map (hf : Keeps f) (curly : Bool) (cs : List Component) :
    dropLoose curly (cs.map f) = (dropLoose curly cs).map f := by
  have hl : (Component.isLoose curly) ∘ f = Component.isLoose curly := by
    funext c
    rw [Function.comp_apply, Component.isLoose, Component.isLoose, hf.trivia, hf.shape]
  rw [dropLoose, dropLoose, ← List.map_reverse, List.dropWhile_map, hl, List.map_reverse]

theorem breakLine_map (hf : Keeps f) (cs : List Component) : breakLine (cs.map f) = (breakLine cs).map f := by
  have hnew : f Component.newline = Component.newline := hf.whitespace.2 rfl
  cases cs with
  | nil => exact congrArg (fun c => [c]) hnew.symm
  | cons c cs =>
    by_cases h : ∃ p w, c = .leaf p (.whitespace w)
    · obtain ⟨p, w, rfl⟩ := h
      have hw (w : Text) : f (.leaf p (.whitespace w)) = .leaf p (.whitespace w) := hf.whitespace.2 rfl
      simp [breakLine, hw]
    · have hn : ∀ p w, c ≠ .leaf p (.whitespace w) := fun p w he => h ⟨p, w, he⟩
      have hfn : ∀ p w, f c ≠ .leaf p (.whitespace w) := fun p w he => hn p w (hf.whitespace.1 he)
      rw [List.map_cons, breakLine_cons_of_not hfn, breakLine_cons_of_not hn, List.map_cons, List.map_cons, hnew]

theorem breakLines_map (hf : Keeps f) (cs : List Component) : breakLines (cs.map f) = (breakLines cs).map f := by
  induction cs with
  | nil => rfl
  | cons c cs ih =>
    rw [List.map_cons, breakLines, breakLines, breakAfter, breakAfter, hf.broken, ih, hf.breakLine_map]
    split <;> rfl

end Keeps

theorem keeps_slim : Keeps Component.slim where
  shape := Component.shape_slim
  trivia := Component.isTrivia_slim
  broken c := by cases c <;> rfl
  whitespace {c p w} := by cases c <;> simp [Component.slim]

theorem keeps_settle : Keeps Component.settle where
  shape c := by
    cases c with
    | leaf p t => cases t <;> rfl
    | block p b cs => cases b <;> rfl
    | function p name cs => rfl
  trivia c := by
    cases c with
    | leaf p t => cases t <;> rfl
    | _ => rfl
  broken c := by
    cases c with
    | leaf p t => cases t <;> rfl
    | _ => rfl
  whitespace {c p w} := by
    cases c with
    | leaf q t => cases t <;> simp [Component.settle, Leaf.settle]
    | _ => simp [Component.settle]

section Slim

variable {before : Component} {cs : List Component}

theorem inDeclaration_cons_of_isTrivia {c : Component} (h : c.isTrivia = true) (cs : List Component) :
    inDeclaration (c :: cs) = inDeclaration cs := by
  rw [inDeclaration, Component.shape_of_isTrivia h]
  rfl

theorem inDeclaration_spacedAfter (before : Component) (gap : Bool) (cs : List Component) :
    inDeclaration (spacedAfter before gap cs) = inDeclaration cs := by
  induction cs generalizing before gap with
  | nil => rfl
  | cons c cs ih =>
    rw [spacedAfter]
    split
    · rename_i hc
      rw [ih, inDeclaration_cons_of_isTrivia hc]
    · split
      · rw [List.singleton_append, inDeclaration_cons_of_isTrivia rfl, inDeclaration, inDeclaration, ih]
      · rw [List.nil_append, inDeclaration, inDeclaration, ih]

theorem inDeclaration_breakAfter (c : Component) (cs : List Component) : inDeclaration (breakAfter c cs) = inDeclaration cs := by
  unfold breakAfter
  split
  · unfold breakLine
    split
    · rw [inDeclaration_cons_of_isTrivia rfl, inDeclaration_cons_of_isTrivia rfl]
    · exact inDeclaration_cons_of_isTrivia rfl _
  · rfl

theorem inDeclaration_breakLines (cs : List Component) : inDeclaration (breakLines cs) = inDeclaration cs := by
  induction cs with
  | nil => rfl
  | cons c cs ih => rw [breakLines, inDeclaration, inDeclaration, inDeclaration_breakAfter, ih]

/-- A level on which a broken string stands before trivia or at the end. -/
def Breaks (cs : List Component) : Prop := List.IsChain (fun c d => c.isBroken = true → d.isTrivia = true) cs

theorem spacedAfter_trivia_cons {c : Component} (h : c.isTrivia = true) (before : Component) (gap : Bool) (cs : List Component) :
    spacedAfter before gap (c :: cs) = spacedAfter before true cs := by
  rw [spacedAfter, if_pos h]

/-- What follows a component of a slim level stays, newlines behind broken strings or not. -/
theorem spacedAfter_breakLines {gap : Bool} (hb : before.isTrivia = false) (h : Breaks cs)
    (hg : before.isBroken = true → gap = false → ∀ c ∈ cs.head?, c.isTrivia = true) :
    spacedAfter before false (breakAfter before (breakLines (spacedAfter before gap cs))) = spacedAfter before gap cs := by
  -- the newline is spacing where the broken string had spacing behind it already, so it is kept or dropped as that was
  induction cs generalizing before gap with
  | nil =>
    rw [spacedAfter, breakLines, breakAfter]
    split <;> rfl
  | cons c cs ih =>
    obtain ⟨hc, hcs⟩ := List.isChain_cons.1 h
    by_cases ht : c.isTrivia = true
    · rw [spacedAfter_trivia_cons ht]
      exact ih hb hcs fun _ hgap => by cases hgap
    · have hf : c.isTrivia = false := by simpa using ht
      have ih : spacedAfter c false (breakAfter c (breakLines (spacedAfter c false cs))) = spacedAfter c false cs :=
        ih hf hcs fun hbr _ d hd => hc d hd hbr
      have hbreak : breakLines (c :: spacedAfter c false cs) = c :: breakAfter c (breakLines (spacedAfter c false cs)) := rfl
      generalize hx : breakAfter c (breakLines (spacedAfter c false cs)) = x at ih hbreak
      have hidle : isIdle before c x = isIdle before c cs := by
        have hd : inDeclaration x = inDeclaration cs := by
          rw [← hx, inDeclaration_breakAfter, inDeclaration_breakLines, inDeclaration_spacedAfter]
        rw [isIdle, isIdle, inDeclaration, inDeclaration, hd]
      have hkeep (gap : Bool) : spacedAfter before gap (c :: x) =
          (if gap && !isIdle before c cs then [.space] else []) ++ c :: spacedAfter c false cs := by
        rw [spacedAfter, if_neg ht, hidle, ih]
      rw [spacedAfter, if_neg ht]
      by_cases hs : (gap && !isIdle before c cs) = true
      · obtain ⟨rfl, -⟩ := Bool.and_eq_true_iff.1 hs
        have hspace : breakLines (Component.space :: c :: spacedAfter c false cs) = Component.space :: c :: x :=
          congrArg (Component.space :: ·) hbreak
        rw [if_pos hs, List.singleton_append, hspace, breakAfter]
        split
        · rw [Component.space, breakLine, spacedAfter_trivia_cons rfl, hkeep, if_pos hs]
          rfl
        · rw [spacedAfter_trivia_cons rfl, hkeep, if_pos hs]
          rfl
      · rw [if_neg hs, List.nil_append, hbreak, breakAfter]
        split
        · rename_i hbr
          have hgap : gap = true := by
            by_contra hn
            exact ht (hg hbr (by simpa using hn) c rfl)
          subst hgap
          rw [breakLine_cons_of_not (Component.ne_whitespace_of_not hf), spacedAfter_trivia_cons rfl, hkeep, if_neg hs]
          rfl
        · rw [hkeep]
          rfl

theorem spaced_breakLines (h : Breaks cs) : spaced (breakLines (spaced cs)) = spaced cs := by
  induction cs with
  | nil => rfl
  | cons c cs ih =>
    by_cases ht : c.isTrivia = true
    · rw [spaced_cons_of_isTrivia ht, ih (List.IsChain.tail h)]
    · have hf : c.isTrivia = false := by simpa using ht
      obtain ⟨hc, hcs⟩ := List.isChain_cons.1 h
      rw [spaced_cons_of_not hf, breakLines, spaced_cons_of_not hf, spacedAfter_breakLines hf hcs fun hbr _ d hd => hc d hd hbr]

theorem inDeclaration_concat {t : Component} (h : t.isTrivia = true) (cs : List Component) :
    inDeclaration (cs ++ [t]) = inDeclaration cs := by
  induction cs with
  | nil => exact inDeclaration_cons_of_isTrivia h []
  | cons c cs ih => rw [List.cons_append, inDeclaration, inDeclaration, ih]

theorem spacedAfter_concat_trivia {t : Component} (h : t.isTrivia = true) (before : Component) (gap : Bool)
    (cs : List Component) : spacedAfter before gap (cs ++ [t]) = spacedAfter before gap cs := by
  induction cs generalizing before gap with
  | nil => exact spacedAfter_trivia_cons h before gap []
  | cons c cs ih =>
    rw [List.cons_append, spacedAfter, spacedAfter, ih, ih, isIdle, isIdle, ← List.cons_append, inDeclaration_concat h]

theorem spaced_concat_trivia {t : Component} (h : t.isTrivia = true) (cs : List Component) : spaced (cs ++ [t]) = spaced cs := by
  induction cs with
  | nil => exact spaced_cons_of_isTrivia h []
  | cons c cs ih =>
    by_cases ht : c.isTrivia = true
    · rw [List.cons_append, spaced_cons_of_isTrivia ht, ih, spaced_cons_of_isTrivia ht]
    · have hf : c.isTrivia = false := by simpa using ht
      rw [List.cons_append, spaced_cons_of_not hf, spaced_cons_of_not hf, spacedAfter_concat_trivia h]

variable {c : Component}

theorem exists_spacedAfter_concat (hc : c.isTrivia = false) (before : Component) (gap : Bool) (cs : List Component) :
    ∃ ds, spacedAfter before gap (cs ++ [c]) = ds ++ [c] := by
  induction cs generalizing before gap with
  | nil =>
    refine ⟨if gap && !isIdle before c [] then [.space] else [], ?_⟩
    rw [List.nil_append, spacedAfter, if_neg (by simp [hc])]
    rfl
  | cons d cs ih =>
    rw [List.cons_append, spacedAfter]
    split
    · exact ih before true
    · obtain ⟨ds, hds⟩ := ih d false
      exact ⟨_ ++ d :: ds, by rw [hds, List.append_assoc]; rfl⟩

theorem exists_spaced_concat (hc : c.isTrivia = false) (cs : List Component) : ∃ ds, spaced (cs ++ [c]) = ds ++ [c] := by
  induction cs with
  | nil => exact ⟨[], spaced_cons_of_not hc []⟩
  | cons d cs ih =>
    by_cases ht : d.isTrivia = true
    · rwa [List.cons_append, spaced_cons_of_isTrivia ht]
    · have hf : d.isTrivia = false := by simpa using ht
      obtain ⟨ds, hds⟩ := exists_spacedAfter_concat hc d false cs
      exact ⟨d :: ds, by rw [List.cons_append, spaced_cons_of_not hf, hds]; rfl⟩

/-- The end of a level stays where newlines are put before it. -/
theorem exists_breakLines_concat (hc : c.isTrivia = false) (cs : List Component) :
    ∃ ds, breakLines (cs ++ [c]) = ds ++ c :: breakAfter c [] := by
  induction cs with
  | nil => exact ⟨[], rfl⟩
  | cons d cs ih =>
    obtain ⟨ds, hds⟩ := ih
    rw [List.cons_append, breakLines, hds, breakAfter]
    split
    · cases ds with
      | nil => exact ⟨[d, .newline], by rw [List.nil_append, breakLine_cons_of_not (Component.ne_whitespace_of_not hc)]; rfl⟩
      | cons e ds =>
        rw [List.cons_append]
        unfold breakLine
        split
        · rename_i he
          obtain ⟨-, rfl⟩ := List.cons.inj he
          exact ⟨_ :: _ :: ds, rfl⟩
        · exact ⟨d :: .newline :: e :: ds, rfl⟩
    · exact ⟨d :: ds, rfl⟩

theorem dropLoose_eq_nil_or (curly : Bool) (cs : List Component) :
    dropLoose curly cs = [] ∨ ∃ ds c, dropLoose curly cs = ds ++ [c] ∧ c.isLoose curly = false := by
  induction cs using List.reverseRecOn with
  | nil => exact .inl rfl
  | append_singleton cs c ih =>
    rw [dropLoose_concat]
    split
    · exact ih
    · rename_i hc
      exact .inr ⟨cs, c, rfl, by simpa using hc⟩

/-- A slim level is slim, newlines behind broken strings or not. -/
theorem spaced_dropLoose_breakLines (curly : Bool) (h : Breaks cs) :
    spaced (dropLoose curly (breakLines (spaced (dropLoose curly cs)))) = spaced (dropLoose curly cs) := by
  have hbreaks : Breaks (dropLoose curly cs) := by
    obtain ⟨ds, hcs, -⟩ := exists_dropLoose curly cs
    unfold Breaks at h
    rw [hcs] at h
    exact h.left_of_append
  rcases dropLoose_eq_nil_or curly cs with hd | ⟨ds, c, hd, hc⟩
  · rw [hd]
    rfl
  · rw [hd] at hbreaks ⊢
    have hs := spaced_breakLines hbreaks
    have ht : c.isTrivia = false := (Bool.or_eq_false_iff.1 hc).1
    obtain ⟨es, hes⟩ := exists_spaced_concat ht ds
    obtain ⟨fs, hfs⟩ := exists_breakLines_concat ht es
    rw [hes, hfs, ← hes, ← hs, hes, hfs]
    have hdrop : dropLoose curly (fs ++ [c]) = fs ++ [c] := by rw [dropLoose_concat, if_neg (by simp [hc])]
    unfold breakAfter
    split
    · have he : fs ++ c :: breakLine [] = fs ++ [c] ++ [.newline] := by simp [breakLine]
      have hloose : Component.isLoose curly .newline = true := rfl
      rw [he, dropLoose_concat, if_pos hloose, hdrop, spaced_concat_trivia (t := .newline) rfl]
    · rw [hdrop]

end Slim

section Levels

variable {x z : Lexeme} {cs : List Component}

theorem Joined.breaks (h : Joined Beside x cs z) : Breaks cs := by
  induction cs generalizing x with
  | nil => exact List.isChain_nil
  | cons c cs ih =>
    refine List.isChain_cons.2 ⟨fun d hd hc => ?_, ih h.2⟩
    cases cs with
    | nil => cases hd
    | cons e cs =>
      obtain rfl := Option.some.inj hd
      have hlast : c.last = .leaf (.error .badString) := by
        unfold Component.isBroken at hc
        split at hc
        · rfl
        · cases hc
      by_contra ht
      obtain ⟨-, -, hf⟩ := e.tokens_of_not (by simpa using ht)
      rw [h.2.1.meets.2 hlast] at hf
      cases hf

theorem breaks_slimAll : Breaks (slimAll cs) ↔ Breaks cs := by
  rw [slimAll_eq_map, Breaks, List.isChain_map]
  simp only [keeps_slim.broken, keeps_slim.trivia]
  rfl

/-- A slim level comes back as itself, if its members do. -/
theorem slimLevel_mend_of (h : ∀ c ∈ slimAll cs, c.mend.slim = c.settle) (hb : Breaks cs) (curly : Bool) :
    slimLevel curly (breakLines (mendAll (slimLevel curly cs))) = settleAll (slimLevel curly cs) := by
  have hmem : ∀ c ∈ slimLevel curly cs, (Component.slim ∘ Component.mend) c = c.settle := fun c hc => by
    rcases mem_of_mem_spaced hc with hc | rfl
    · exact h c hc
    · rfl
  calc slimLevel curly (breakLines (mendAll (slimLevel curly cs)))
      = spaced (dropLoose curly (breakLines ((slimLevel curly cs).map (Component.slim ∘ Component.mend)))) := by
        rw [slimLevel, slimAll_eq_map, ← keeps_slim.breakLines_map, mendAll_eq_map, List.map_map]
    _ = spaced (dropLoose curly (breakLines ((slimLevel curly cs).map Component.settle))) := by
        rw [List.map_congr_left hmem]
    _ = (spaced (dropLoose curly (breakLines (slimLevel curly cs)))).map Component.settle := by
        rw [keeps_settle.breakLines_map, keeps_settle.dropLoose_map, keeps_settle.spaced_map]
    _ = settleAll (slimLevel curly cs) := by
        rw [slimLevel, spaced_dropLoose_breakLines curly (breaks_slimAll.2 hb), settleAll_eq_map]

mutual
theorem Component.slim_mend_slim (c : Component) (h : c.Levels (Joined Beside)) : c.slim.mend.slim = c.slim.settle := by
  cases c with
  | leaf p t => rfl
  | block p b cs =>
    have hcs := slimAll_mend_slim cs h.2
    exact congrArg (Component.block p b) (slimLevel_mend_of hcs h.1.breaks _)
  | function p name cs =>
    have hcs := slimAll_mend_slim cs h.2
    exact congrArg (Component.function p name) (slimLevel_mend_of hcs h.1.breaks _)

theorem slimAll_mend_slim (cs : List Component) (h : LevelsAll (Joined Beside) cs) :
    ∀ c ∈ slimAll cs, c.mend.slim = c.settle := by
  cases cs with
  | nil => exact List.forall_mem_nil _
  | cons c cs =>
    have hc := c.slim_mend_slim h.1
    have hcs := slimAll_mend_slim cs h.2
    exact List.forall_mem_cons.2 ⟨hc, hcs⟩
end

/-- Slimming what comes back of a slim level gives the level again. -/
theorem slimLevel_mend (hj : Joined Beside x cs z) (h : LevelsAll (Joined Beside) cs) (curly : Bool) :
    slimLevel curly (breakLines (mendAll (slimLevel curly cs))) = settleAll (slimLevel curly cs) :=
  slimLevel_mend_of (slimAll_mend_slim cs h) hj.breaks curly

mutual
theorem Component.bare_settle (c : Component) : c.settle.bare = c.bare := by
  cases c with
  | leaf p t => exact t.write_settle
  | block p b cs =>
    have h := bareAll_settleAll cs
    rw [Component.settle, Component.bare, Component.bare, h]
  | function p name cs =>
    have h := bareAll_settleAll cs
    rw [Component.settle, Component.bare, Component.bare, h]

theorem bareAll_settleAll (cs : List Component) : bareAll (settleAll cs) = bareAll cs := by
  cases cs with
  | nil => rfl
  | cons c cs =>
    have hc := c.bare_settle
    have h := bareAll_settleAll cs
    rw [settleAll, bareAll, bareAll, hc, h]
end

end Levels

section Fits

theorem mem_of_mem_breakLine {d : Component} {cs : List Component} (h : d ∈ breakLine cs) :
    d ∈ cs ∨ ∃ p w, d = .leaf p (.whitespace w) := by
  unfold breakLine at h
  split at h
  · rcases List.mem_cons.1 h with rfl | h
    · exact .inr ⟨_, _, rfl⟩
    · exact .inl (List.mem_cons_of_mem _ h)
  · rcases List.mem_cons.1 h with rfl | h
    · exact .inr ⟨_, _, rfl⟩
    · exact .inl h

theorem mem_of_mem_breakLines {d : Component} {cs : List Component} (h : d ∈ breakLines cs) :
    d ∈ cs ∨ ∃ p w, d = .leaf p (.whitespace w) := by
  induction cs with
  | nil => cases h
  | cons c cs ih =>
    rcases List.mem_cons.1 h with rfl | h
    · exact .inl List.mem_cons_self
    · have hd : d ∈ breakLines cs ∨ ∃ p w, d = .leaf p (.whitespace w) := by
        unfold breakAfter at h
        split at h
        · exact mem_of_mem_breakLine h
        · exact .inl h
      rcases hd with hd | hd
      · exact (ih hd).imp_left (List.mem_cons_of_mem c)
      · exact .inr hd

theorem LevelsAll.breakLines {P : Lexeme → List Component → Lexeme → Prop} {cs : List Component} (h : LevelsAll P cs) :
    LevelsAll P (breakLines cs) := by
  refine levelsAll_iff.2 fun d hd => ?_
  rcases mem_of_mem_breakLines hd with hd | ⟨p, w, rfl⟩
  · exact levelsAll_iff.1 h d hd
  · trivial

theorem Component.stray?_mend (c : Component) : c.mend.stray? = c.stray? := by
  cases c with
  | leaf p t => cases t <;> rfl
  | _ => rfl

theorem Fits.mend {x z : Lexeme} {cs : List Component} (h : Fits x cs z) : Fits x (StylePrune.Css.breakLines (mendAll cs)) z := by
  intro d hd
  rcases mem_of_mem_breakLines hd with hd | ⟨p, w, rfl⟩
  · rw [mendAll_eq_map] at hd
    obtain ⟨c, hc, rfl⟩ := List.mem_map.1 hd
    rw [c.stray?_mend]
    exact h c hc
  · exact nofun

mutual
theorem Component.levels_fits_mend (c : Component) (h : c.Levels Fits) : c.mend.Levels Fits := by
  cases c with
  | leaf p t => trivial
  | block p b cs => exact ⟨Fits.mend h.1, (levelsAll_fits_mendAll cs h.2).breakLines⟩
  | function p name cs => exact ⟨Fits.mend h.1, (levelsAll_fits_mendAll cs h.2).breakLines⟩

theorem levelsAll_fits_mendAll (cs : List Component) (h : LevelsAll Fits cs) : LevelsAll Fits (mendAll cs) := by
  cases cs with
  | nil => trivial
  | cons c cs => exact ⟨c.levels_fits_mend h.1, levelsAll_fits_mendAll cs h.2⟩
end

end Fits

end StylePrune.Css
