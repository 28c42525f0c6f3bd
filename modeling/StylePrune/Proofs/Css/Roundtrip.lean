import Mathlib
import StylePrune.Proofs.Css.Legible
import StylePrune.Proofs.Css.Offsets

/-!
Tokens and their text. A list of tokens that stand side by side as a reader leaves them, and that no other way of reading takes
for something else, is what its text reads as.
-/

set_option autoImplicit false

namespace StylePrune.Css

/-- A token before another one: it is not carried on, a URL keeps its quotes, and a broken string its newline. -/
structure Follows (x y : Lexeme) : Prop where
  abuts : Abuts x y
  quoted : x.isUrlFunction = true → y.isQuoted = true
  broken : x = .leaf (.error .badString) → ∃ t, y = .leaf (.whitespace (.char '\n' :: t))

/-- A token that reading gives for its own text: comments have been taken out, brackets are brackets, and units are spelled in the
one way that is written. -/
def Lexeme.isSettled : Lexeme → Bool
  | .leaf (.comment _) | .leaf (.error (.unmatched _)) => false
  | .leaf (.dimension _ u) => rereadUnit u = u
  | _ => true

def CutOff.isClear : CutOff → Bool
  | string _ => true
  | url v => v.all fun c => !isNonPrintable c

/-- Tokens of which each can be told from its text and the text behind it. -/
inductive Legible : List Lexeme → Prop
  | nil : Legible []
  | cut (x : CutOff) (hp : (Lexeme.leaf x.leaf).IsProper) (hc : x.isClear = true) : Legible x.lexemes
  | cons {x : Lexeme} {xs : List Lexeme} (hp : x.IsProper) (hs : x.isSettled = true) (hc : x.isClear (spell xs) = true)
    (hf : ∀ y ∈ (xs ++ [Lexeme.closing .curly]).head?, Follows x y) (h : Legible xs) : Legible (x :: xs)

@[simp] theorem spell_nil : spell [] = [] := rfl

@[simp] theorem spell_cons (x : Lexeme) (xs : List Lexeme) : spell (x :: xs) = x.spell ++ spell xs := List.flatMap_cons

section Reading

variable {x : Lexeme} {m : Text}

theorem isPrintable_of_all {v : Text} (h : (v.all fun c => !isNonPrintable c) = true) : IsPrintable v :=
  fun c hc => by simpa using List.all_eq_true.1 h c hc

theorem Lexeme.head?_spell_of_isQuoted (x : Lexeme) (h : x.isQuoted = true) (m : Text) :
    (x.spell ++ m).head? = some (.char '"') := by
  unfold isQuoted at h
  split at h
  · rfl
  · rfl
  · cases h

/-- Each token is read back before a text that does not carry it on. -/
theorem Lexeme.isReadBack (hp : x.IsProper) (hs : x.isSettled = true) (hc : x.isClear m = true)
    (hb : ∀ f ∈ x.bars, f.shownBy m = false) (hurl : x.isUrlFunction = true → m.head? = some (.char '"'))
    (hbad : x = .leaf (.error .badString) → m.head? = some (.char '\n')) : IsReadBack x m := by
  cases x with
  | opening b => exact (isReadBack_bracket b m).1
  | closing b => exact (isReadBack_bracket b m).2
  | function n => exact isReadBack_function hp.1 fun h => hurl (by simpa [isUrlFunction] using h)
  | leaf t =>
    cases t with
    | whitespace w => exact isReadBack_whitespace hp.1 hp.2 (hb .space List.mem_cons_self)
    | comment v => cases hs
    | ident n => exact isReadBack_ident hp.1 hc (hb .name (by simp [bars])) (hb .paren (by simp [bars]))
    | atKeyword n => exact isReadBack_atKeyword hp.1 (hb .name List.mem_cons_self)
    | hash n isIdent => exact isReadBack_hash hp.1 hp.2.2 (hb .name List.mem_cons_self)
    | string v closed =>
      obtain rfl : closed = true := hc
      exact isReadBack_string v m
    | url v closed =>
      obtain ⟨rfl, hv⟩ := Bool.and_eq_true_iff.1 hc
      exact isReadBack_url (isPrintable_of_all hv) m
    | number r => exact isReadBack_number hp hb
    | percentage r => exact isReadBack_percentage hp m
    | dimension r u =>
      exact isReadBack_dimension hp.1 hp.2.1 (by simpa [isClear] using hc) (by simpa [isSettled] using hs)
        (hb .name List.mem_cons_self)
    | unicodeRange low high => exact isReadBack_unicodeRange hp.1 hp.2 (by simpa [isClear] using hc)
    | literal s =>
      obtain ⟨-, ⟨c, rfl, hm⟩ | ⟨c, rfl, hm⟩ | hword⟩ := hp
      · exact isReadBack_mark hm hc hb
      · exact isReadBack_matcher hm m
      · exact isReadBack_word hword m
    | error e =>
      cases e with
      | badString =>
        obtain ⟨t, rfl⟩ := List.head?_eq_some_iff.1 (hbad rfl)
        exact isReadBack_badString t
      | badUrl => exact isReadBack_badUrl m
      | stringAtEnd => cases hc
      | urlAtEnd => cases hc
      | unmatched b => cases hs

theorem CutOff.shownBy_lead (x : CutOff) {f : Feature} (h : f.shownBy (spell x.lexemes) = true) :
    f.shownBy (Lexeme.leaf x.leaf).lead = true := by
  cases x with
  | string v => cases f <;> cases h
  | url v => exact shownBy_u_of_startsIdent rfl h

theorem CutOff.lexemes_spell (x : CutOff) (h : x.isClear = true) : StylePrune.Css.lexemes (spell x.lexemes) = x.lexemes := by
  cases x with
  | string v =>
    have hs : spell (CutOff.string v).lexemes = .char '"' :: v.flatMap writeStringChar := by
      simp [lexemes, leaf, error, Lexeme.spell, Leaf.write, TokenError.write]
    rw [hs, lexemes_string_atEnd]
  | url v =>
    have hs : spell (CutOff.url v).lexemes = "url(" ++ v.flatMap writeUrlChar := by
      simp [lexemes, leaf, error, Lexeme.spell, Leaf.write, TokenError.write]
    rw [hs, lexemes_url_atEnd (isPrintable_of_all h)]

end Reading

section Seen

variable {c : CodePoint} {s t n : Text}

theorem isSeen_nil : IsSeen [] := List.forall_mem_nil _

theorem IsSeen.append (hs : IsSeen s) (ht : IsSeen t) : IsSeen (s ++ t) := List.forall_mem_append.2 ⟨hs, ht⟩

theorem isSeen_singleton (h : c ≠ '\r' ∧ c ≠ '\x0c' ∧ c ≠ '\x00') : IsSeen [c] := List.forall_mem_singleton.2 h

theorem isSeen_flatMap {f : CodePoint → Text} (h : ∀ c ∈ s, IsSeen (f c)) : IsSeen (s.flatMap f) := by
  intro d hd
  obtain ⟨c, hc, hd⟩ := List.mem_flatMap.1 hd
  exact h c hc d hd

theorem Escapes.isSeen (h : Escapes t c) (hc : c ≠ '\x00') : IsSeen t := by
  unfold IsSeen
  cases h with
  | plain hx hn =>
    refine List.forall_mem_cons.2 ⟨by decide, List.forall_mem_singleton.2 ⟨?_, ?_, hc⟩⟩ <;> rintro rfl <;> cases hn
  | digit hd =>
    refine List.forall_mem_cons.2 ⟨by decide, List.forall_mem_cons.2 ⟨by decide, List.forall_mem_cons.2 ⟨?_, by decide⟩⟩⟩
    refine ⟨?_, ?_, hc⟩ <;> rintro rfl <;> cases hd
  | _ => decide

theorem isSeen_of_isNameChar (h : isNameChar c = true) : IsSeen [c] := by
  refine isSeen_singleton ⟨?_, ?_, ?_⟩ <;> rintro rfl <;> exact absurd h (by decide)

theorem isSeen_writeName (h : HasNoNul n) : IsSeen (writeName n) := by
  refine isSeen_flatMap fun c hc => ?_
  rcases writeNameChar_cases c with ⟨hw, hn⟩ | ⟨he, -⟩
  · rw [hw]
    exact isSeen_of_isNameChar hn
  · exact he.isSeen (h c hc)

theorem isSeen_writeIdentBody (h : HasNoNul n) : IsSeen (writeIdentBody n) := by
  cases n with
  | nil => exact isSeen_nil
  | cons c n =>
    obtain ⟨hc, hn⟩ := List.forall_mem_cons.1 h
    refine IsSeen.append ?_ (isSeen_writeName hn)
    rcases writeNameStart_cases c with ⟨hw, hs⟩ | ⟨he, -⟩
    · rw [hw]
      exact isSeen_of_isNameChar (isNameChar_of_isNameStart hs)
    · exact he.isSeen hc

theorem isSeen_writeIdent (h : HasNoNul n) : IsSeen (writeIdent n) := by
  have dash {s : Text} (hs : IsSeen s) : IsSeen (.char '-' :: s) := List.forall_mem_cons.2 ⟨by decide, hs⟩
  unfold writeIdent
  split
  · unfold IsSeen
    decide
  · exact dash (dash (isSeen_writeName fun c hc => h c (List.mem_cons_of_mem _ (List.mem_cons_of_mem _ hc))))
  · exact dash (isSeen_writeIdentBody fun c hc => h c (List.mem_cons_of_mem _ hc))
  · exact isSeen_writeIdentBody h

theorem isSeen_writeUnit (h : HasNoNul n) : IsSeen (writeUnit n) := by
  unfold writeUnit
  split
  · split
    · refine IsSeen.append ?_ (isSeen_writeName fun c hc => h c (List.mem_cons_of_mem _ hc))
      unfold IsSeen
      decide
    · exact isSeen_writeIdent h
  · exact isSeen_nil

theorem isSeen_writeStringChar (hc : c ≠ '\x00') : IsSeen (writeStringChar c) := by
  unfold writeStringChar
  split
  · rename_i h
    unfold IsSeen
    rcases h with rfl | rfl <;> decide
  · cases he : escapeNewline? c with
    | some t => exact (escapes_of_escapeNewline? he).isSeen hc
    | none => refine isSeen_singleton ⟨?_, ?_, hc⟩ <;> rintro rfl <;> cases he

theorem isSeen_writeUrlChar (hc : c ≠ '\x00') : IsSeen (writeUrlChar c) := by
  unfold writeUrlChar IsSeen
  split
  · rename_i h
    rcases h with rfl | rfl | rfl | rfl | rfl | rfl <;> decide
  · split
    · decide
    · cases he : escapeNewline? c with
      | some t => exact (escapes_of_escapeNewline? he).isSeen hc
      | none => refine isSeen_singleton ⟨?_, ?_, hc⟩ <;> rintro rfl <;> cases he

theorem IsNumber.isSeen (h : IsNumber s) : IsSeen s := by
  have digit {ds : Text} (hd : ∀ c ∈ ds, c.isDigit = true) : IsSeen ds :=
    fun c hc => isSeen_of_isNameChar (by simp [isNameChar, hd c hc]) c (List.mem_singleton.2 rfl)
  have sign {sg : Text} (hs : IsSign sg) : IsSeen sg := by
    unfold IsSeen
    rcases hs with rfl | rfl | rfl <;> decide
  obtain ⟨hs, hw, hf, -, he⟩ := h
  refine IsSeen.append ((sign hs).append ((digit hw).append ?_)) ?_
  · cases hf with
    | none => exact isSeen_nil
    | some hd => exact List.forall_mem_cons.2 ⟨by decide, digit hd.2⟩
  · cases he with
    | none => exact isSeen_nil
    | some hc hs hd =>
      refine List.forall_mem_cons.2 ⟨?_, (sign hs).append (digit hd.2)⟩
      rcases hc with rfl | rfl <;> decide

theorem isSeen_hexOfNat (n : Nat) : IsSeen (Text.hexOfNat n) := by
  intro c hc
  have := isHexDigit_of_mem_hexOfNat n c hc
  refine ⟨?_, ?_, ?_⟩ <;> rintro rfl <;> exact absurd this (by decide)

/-- What is written of a token is read as it is. -/
theorem Lexeme.isSeen_spell {x : Lexeme} (hp : x.IsProper) (hs : x.isSettled = true) : IsSeen x.spell := by
  have cons {c : CodePoint} {u : Text} (hc : c ≠ '\r' ∧ c ≠ '\x0c' ∧ c ≠ '\x00') (hu : IsSeen u) : IsSeen (c :: u) :=
    List.forall_mem_cons.2 ⟨hc, hu⟩
  cases x with
  | opening b => cases b <;> exact isSeen_singleton (by decide)
  | closing b => cases b <;> exact isSeen_singleton (by decide)
  | function n => exact (isSeen_writeIdent hp.2).append (isSeen_singleton (by decide))
  | leaf t =>
    cases t with
    | whitespace w =>
      intro c hc
      have hspace := hp.2 c hc
      refine ⟨?_, ?_, ?_⟩ <;> rintro rfl <;> exact absurd hspace (by decide)
    | comment v => cases hs
    | ident n => exact isSeen_writeIdent hp.2
    | atKeyword n => exact cons (by decide) (isSeen_writeIdent hp.2)
    | hash n isIdent =>
      refine cons (by decide) ?_
      split
      · exact isSeen_writeIdent hp.2.1
      · exact isSeen_writeName hp.2.1
    | string v closed =>
      refine (cons (by decide) (isSeen_flatMap fun c hc => isSeen_writeStringChar (hp c hc))).append ?_
      split
      · exact isSeen_singleton (by decide)
      · exact isSeen_nil
    | url v closed =>
      refine IsSeen.append (IsSeen.append ?_ (isSeen_flatMap fun c hc => isSeen_writeUrlChar (hp c hc))) ?_
      · unfold IsSeen
        decide
      · split
        · exact isSeen_singleton (by decide)
        · exact isSeen_nil
    | number r => exact IsNumber.isSeen hp
    | percentage r => exact (IsNumber.isSeen hp).append (isSeen_singleton (by decide))
    | dimension r u => exact hp.1.isSeen.append (isSeen_writeUnit hp.2.2)
    | unicodeRange low high =>
      refine IsSeen.append (IsSeen.append ?_ (isSeen_hexOfNat low)) ?_
      · unfold IsSeen
        decide
      · split
        · exact isSeen_nil
        · exact cons (by decide) (isSeen_hexOfNat high)
    | literal s => exact hp.1
    | error e =>
      unfold IsSeen
      cases e with
      | unmatched b => cases hs
      | _ => decide

/-- A text that reading leaves as it is. -/
theorem preprocess_of_isSeen (h : IsSeen s) : preprocess s = s := by
  rw [preprocess_of_clean fun c hc => ⟨(h c hc).1, (h c hc).2.1⟩, seen]
  refine (List.map_congr_left fun c hc => ?_).trans (List.map_id s)
  exact if_neg (h c hc).2.2

theorem isSeen_preprocess (s : Text) : IsSeen (preprocess s) := by
  have he : preprocess s = seen (normalizeNewlines s) := normalizeNewlines_seen s
  intro c hc
  rw [he] at hc
  obtain ⟨hr, hf⟩ := clean_seen.2 (clean_normalizeNewlines s) c hc
  refine ⟨hr, hf, ?_⟩
  obtain ⟨d, -, rfl⟩ := List.mem_map.1 hc
  split
  · decide
  · assumption

theorem isProper_of_mem_lex {t : Position × Lexeme} (h : t ∈ lex s) : t.2.IsProper := by
  refine isProper_of_mem_lexemes (isSeen_preprocess s) t.2 ?_
  rw [← map_snd_lexFrom .first]
  exact List.mem_map_of_mem h

end Seen

namespace Legible

variable {x : Lexeme} {xs ls : List Lexeme}

theorem bars (h : Legible ls) : ∀ {x : Lexeme} {xs : List Lexeme}, ls = x :: xs → ∀ f ∈ x.bars, f.shownBy (spell xs) = false := by
  induction h with
  | nil => exact fun h => nomatch h
  | cut x hp hc =>
    intro y ys hy
    obtain rfl := (List.cons.inj hy).1
    cases x <;> exact List.forall_mem_nil _
  | @cons x xs hp hs hc hf h ih =>
    intro y ys hy f hfb
    obtain ⟨rfl, rfl⟩ := List.cons.inj hy
    cases xs with
    | nil => exact f.shownBy_nil
    | cons z zs =>
      have habuts := (hf z rfl).abuts f hfb
      have ih := ih rfl
      rw [Bool.eq_false_iff]
      intro hshown
      have hlead : f.shownBy z.lead = true := by
        cases h with
        | cut x => exact x.shownBy_lead hshown
        | cons hp _ hc => exact Lexeme.shownBy_lead hp hc ih hshown
      rw [hlead] at habuts
      cases habuts

/-- Legible tokens are what their text reads as. -/
theorem lexemes_spell (h : Legible ls) : lexemes (spell ls) = ls := by
  induction h with
  | nil => exact lexemes_nil
  | cut x hp hc => exact x.lexemes_spell hc
  | @cons x xs hp hs hc hf h ih =>
    have hb := (Legible.cons hp hs hc hf h).bars rfl
    have hread : IsReadBack x (spell xs) := by
      refine Lexeme.isReadBack hp hs hc hb (fun hurl => ?_) fun hbad => ?_
      · cases xs with
        | nil => cases (hf _ rfl).quoted hurl
        | cons y ys =>
          rw [spell_cons]
          exact y.head?_spell_of_isQuoted ((hf y rfl).quoted hurl) _
      · cases xs with
        | nil =>
          obtain ⟨t, ht⟩ := (hf _ rfl).broken hbad
          cases ht
        | cons y ys =>
          obtain ⟨t, rfl⟩ := (hf y rfl).broken hbad
          rfl
    obtain ⟨c, s, hcs, hr⟩ := hread
    rw [spell_cons, hcs, lexemes_cons, hr, ih]
    rfl

theorem isSeen_spell (h : Legible ls) : IsSeen (spell ls) := by
  induction h with
  | nil => exact isSeen_nil
  | cut x hp hc =>
    have hs : (Lexeme.leaf x.leaf).isSettled = true := by cases x <;> rfl
    have he : (Lexeme.leaf (.error x.error)).spell = [] := by cases x <;> rfl
    rw [CutOff.lexemes, spell_cons, spell_cons, he]
    exact (Lexeme.isSeen_spell hp hs).append isSeen_nil
  | cons hp hs hc hf h ih =>
    rw [spell_cons]
    exact (Lexeme.isSeen_spell hp hs).append ih

end Legible

end StylePrune.Css
