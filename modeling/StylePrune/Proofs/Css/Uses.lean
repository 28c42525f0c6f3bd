import StylePrune.Proofs.Css.Complete
import StylePrune.Proofs.Css.Offsets
import StylePrune.Proofs.Css.Prelude

/-!
The selectors of rules with their media. They do not depend on where the rules stand, and those of two lists
of components one after the other are those of both where the first one ends a rule.
-/

set_option autoImplicit false

namespace StylePrune.Css

/-- The selectors of rules with their media, if the reader takes the rules. -/
def Rule.uses? (media : Option Text) (rules : List Rule) : Option (List Use) :=
  match rules with
  | [] => some []
  | .trivia _ :: rs => uses? media rs
  | .unfinished _ :: _ => none
  | .qualified _ prelude _ :: rs =>
    if prelude.findSome? Component.error? = none then
      (uses? media rs).map ((selectorsOf prelude).map (·, media) ++ ·)
    else none
  | .atRule _ keyword prelude (some cs) :: rs =>
    if Text.asciiLower keyword ∈ groupNames then
      let g : Group := ⟨[], Text.asciiLower keyword, [], Selector.normalize (writeAll prelude)⟩
      (uses? (g.mediaWithin media) (ofComponents cs)).bind fun us => (uses? media rs).map (us ++ ·)
    else uses? media rs
  | .atRule _ _ _ none :: rs => uses? media rs
termination_by sizeAll rules
decreasing_by
  all_goals simp only [sizeAll, size, contentSize, Option.map_some,
    Option.map_none, Option.getD_some, Option.getD_none]
  all_goals try omega
  have := sizeAll_ofComponents cs
  omega

theorem toOption_map {ε α β : Type} (f : α → β) (x : Except ε α) : (x.map f).toOption = x.toOption.map f := by
  cases x <;> rfl

/-- What the reader makes of rules has their uses. -/
theorem LinedText.uses?_read (src : LinedText) (rules : List Rule) (pending : Text) (stop : Nat) (media : Option Text) :
    (src.read rules pending stop).toOption.map (fun r => usesAll media r.1) = Rule.uses? media rules := by
  fun_induction LinedText.read src rules pending stop generalizing media with
  | case1 => rw [Rule.uses?]; rfl
  | case2 => rw [Rule.uses?]; rename_i ih; exact ih media
  | case3 => rw [Rule.uses?]; rfl
  | case4 =>
    rename_i hp
    rw [Rule.uses?, if_neg (by simp [hp])]
    rfl
  | case5 _ _ _ _ _ _ _ hp =>
    rename_i ih
    rw [Rule.uses?, if_pos hp, ← ih media, toOption_map, Option.map_map, Option.map_map]
    rfl
  | case6 _ _ _ _ _ _ _ _ _ hn =>
    rename_i hc ihc
    rw [Rule.uses?, if_pos hn]
    simp only []
    rw [← ihc, hc]
    rfl
  | case7 _ _ _ _ _ _ _ _ _ hn _ _ _ _ _ _ _ hc =>
    rename_i ihc ih
    rw [Rule.uses?, if_pos hn, ← ih media]
    simp only []
    rw [← ihc, hc, toOption_map, Option.map_map]
    simp only [Except.toOption, Option.map_some, Option.bind_some, Option.map_map]
    rfl
  | case8 _ _ _ _ _ _ _ _ _ hn =>
    rename_i ih
    rw [Rule.uses?, if_neg hn, ← ih media, toOption_map, Option.map_map]
    rfl
  | case9 =>
    rename_i ih
    rw [Rule.uses?, ← ih media, toOption_map, Option.map_map]
    rfl

namespace Rule

theorem uses?_append (media : Option Text) (rs rs' : List Rule) :
    uses? media (rs ++ rs') = (uses? media rs).bind fun us => (uses? media rs').map (us ++ ·) := by
  induction rs with
  | nil =>
    rw [List.nil_append, uses?]
    cases uses? media rs' <;> rfl
  | cons r rs ih =>
    cases r with
    | trivia p => rw [List.cons_append, uses?, uses?, ih]
    | unfinished p => rw [List.cons_append, uses?, uses?]; rfl
    | qualified p prelude content =>
      rw [List.cons_append, uses?, uses?, ih]
      cases uses? media rs <;> cases uses? media rs' <;> split <;> simp
    | atRule p keyword prelude content =>
      cases content with
      | none => rw [List.cons_append, uses?, uses?, ih]
      | some cs =>
        rw [List.cons_append, uses?, uses?, ih]
        split
        · cases uses? media rs <;> cases uses? media rs' <;> simp [Option.bind_assoc]
        · rfl

/-- A rule as it would be in the first place. -/
def placeless : Rule → Rule
  | .trivia _ => .trivia .first
  | .qualified _ prelude content => .qualified .first (placelessAll prelude) (placelessAll content)
  | .atRule _ name prelude content => .atRule .first name (placelessAll prelude) (content.map placelessAll)
  | .unfinished _ => .unfinished .first

theorem placeless_ne_curly {c : Component} (h : ∀ p content, c = .block p .curly content → False) (p : Position)
    (content : List Component) : c.placeless = .block p .curly content → False := by
  cases c with
  | leaf q t => intro he; cases he
  | function q name args => intro he; cases he
  | block q b cs =>
    intro he
    obtain ⟨-, rfl, -⟩ := Component.block.inj he
    exact h q cs rfl

theorem takeQualified_placelessAll (cs : List Component) :
    takeQualified (placelessAll cs) =
      (placelessAll (takeQualified cs).1, (takeQualified cs).2.1.map placelessAll, placelessAll (takeQualified cs).2.2) := by
  induction cs using takeQualified.induct with
  | case1 => rfl
  | case2 => rfl
  | case3 c cs hc ih =>
    rw [placelessAll, takeQualified, takeQualified, ih]
    · rfl
    · exact hc
    · exact placeless_ne_curly hc

theorem takeAtRule_placelessAll (cs : List Component) :
    takeAtRule (placelessAll cs) =
      (placelessAll (takeAtRule cs).1, (takeAtRule cs).2.1.map placelessAll, placelessAll (takeAtRule cs).2.2) := by
  induction cs using takeAtRule.induct with
  | case1 => rfl
  | case2 => rfl
  | case3 c cs hc hm =>
    rw [placelessAll, takeAtRule, takeAtRule, Component.isMark_placeless, if_pos hm, if_pos hm]
    · rfl
    · exact hc
    · exact placeless_ne_curly hc
  | case4 c cs hc hm ih =>
    rw [placelessAll, takeAtRule, takeAtRule, Component.isMark_placeless, if_neg hm, if_neg hm, ih]
    · rfl
    · exact hc
    · exact placeless_ne_curly hc

theorem isTrivia_placeless (c : Component) : c.placeless.isTrivia = c.isTrivia := by
  cases c with
  | leaf p t => cases t <;> rfl
  | _ => rfl

theorem pos_placeless (c : Component) : c.placeless.pos = .first := by cases c <;> rfl

theorem placelessAll_eq_map (cs : List Component) : placelessAll cs = cs.map Component.placeless := by
  induction cs with
  | nil => rfl
  | cons c cs ih => rw [placelessAll, ih, List.map_cons]

theorem ofQualified_placeless (c : Component) (cs : List Component) :
    ofQualified c.placeless (placelessAll cs) = (ofQualified c cs).placeless := by
  have hq := takeQualified_placelessAll (c :: cs)
  rw [placelessAll] at hq
  simp only [ofQualified, hq]
  cases (takeQualified (c :: cs)).2.1 with
  | some content => simp [placeless, pos_placeless]
  | none =>
    simp only [Option.map_none, placeless, placelessAll_eq_map, List.getLast?_map]
    cases (takeQualified (c :: cs)).1.getLast? <;> simp [pos_placeless]

/-- The rules of components do not depend on where these stand. -/
theorem ofComponents_placelessAll (cs : List Component) :
    ofComponents (placelessAll cs) = (ofComponents cs).map placeless := by
  induction hl : cs.length using Nat.strongRecOn generalizing cs with
  | ind n ih =>
  subst hl
  cases cs with
  | nil => simp [placelessAll, ofComponents]
  | cons c cs =>
    have hlt : cs.length < (c :: cs).length := Nat.lt_succ_self _
    rw [placelessAll]
    by_cases ht : c.isTrivia = true
    · rw [ofComponents_of_isTrivia ht, ofComponents_of_isTrivia ((isTrivia_placeless c).trans ht), ih _ hlt cs rfl]
      cases c <;> rfl
    have hm' : c.placeless.isHtmlMark = c.isHtmlMark := by
      simp only [Component.isHtmlMark, Component.isMark_placeless]
    by_cases hm : c.isHtmlMark = true
    · rw [ofComponents_of_isHtmlMark hm, ofComponents_of_isHtmlMark (hm'.trans hm), ih _ hlt cs rfl]
    by_cases ha : ∃ p name, c = .leaf p (.atKeyword name)
    · obtain ⟨p, name, rfl⟩ := ha
      have hle := takeAtRule_rest_length cs
      rw [Component.placeless, ofComponents_of_atKeyword, ofComponents_of_atKeyword, takeAtRule_placelessAll,
        ih _ (by omega) _ rfl]
      rfl
    · have ha' (p : Position) (name : Text) : c.placeless ≠ .leaf p (.atKeyword name) := by
        cases c with
        | leaf q t =>
          intro he
          obtain ⟨-, rfl⟩ := Component.leaf.inj he
          exact ha ⟨q, name, rfl⟩
        | _ => intro he; cases he
      have hq := takeQualified_placelessAll (c :: cs)
      have hle := takeQualified_rest_length (c :: cs)
      rw [placelessAll] at hq
      rw [ofComponents_of_ne (by simpa using ht) (by simpa using hm) fun p name hc => ha ⟨p, name, hc⟩,
        ofComponents_of_ne ((isTrivia_placeless c).trans (by simpa using ht)) (hm'.trans (by simpa using hm)) ha', hq,
        ih _ (by simp only [List.length_cons, Nat.add_sub_cancel] at hle ⊢; omega) _ rfl]
      rw [List.map_cons, ofQualified_placeless]

theorem uses?_placeless (media : Option Text) (rs : List Rule) : uses? media (rs.map placeless) = uses? media rs := by
  fun_induction uses? media rs with
  | case1 => rw [List.map_nil, uses?]
  | case2 => rename_i ih; rw [List.map_cons, placeless, uses?, ih]
  | case3 => rw [List.map_cons, placeless, uses?]
  | case4 =>
    rename_i hp ih
    rw [List.map_cons, placeless, uses?, if_pos ((findSome?_error?_placelessAll _).2 hp), selectorsOf_placelessAll, ih]
  | case5 =>
    rename_i hp
    rw [List.map_cons, placeless, uses?, if_neg (mt (findSome?_error?_placelessAll _).1 hp)]
  | case6 =>
    rename_i hn _ ihc ih
    rw [List.map_cons, placeless, Option.map_some, uses?, if_pos hn, writeAll_placelessAll, ofComponents_placelessAll, ih,
      ← ihc]
  | case7 =>
    rename_i hn ih
    rw [List.map_cons, placeless, Option.map_some, uses?, if_neg hn, ih]
  | case8 => rename_i ih; rw [List.map_cons, placeless, Option.map_none, uses?, ih]

theorem isCurly_of_ne {c : Component} (h : ∀ p content, c = .block p .curly content → False) : c.isCurly = false := by
  cases c with
  | block p b content => cases b <;> first | rfl | exact (h p content rfl).elim
  | _ => rfl

/-- The end of a rule among components is found whatever stands behind them. -/
theorem takeQualified_append_of_mem {cs : List Component} (h : ∃ c ∈ cs, c.isCurly = true) (ds : List Component) :
    takeQualified (cs ++ ds) = ((takeQualified cs).1, (takeQualified cs).2.1, (takeQualified cs).2.2 ++ ds) := by
  induction cs using takeQualified.induct with
  | case1 => simp at h
  | case2 => rfl
  | case3 c cs hc ih =>
    have hcurly := isCurly_of_ne hc
    have h : ∃ d ∈ cs, d.isCurly = true := by simpa [hcurly] using h
    rw [List.cons_append, takeQualified, takeQualified, ih h]
    · exact hc
    · exact hc

theorem takeAtRule_append_of_mem {cs : List Component} (h : ∃ c ∈ cs, c.Ends) (ds : List Component) :
    takeAtRule (cs ++ ds) = ((takeAtRule cs).1, (takeAtRule cs).2.1, (takeAtRule cs).2.2 ++ ds) := by
  induction cs using takeAtRule.induct with
  | case1 => simp at h
  | case2 => rfl
  | case3 c cs hc hm =>
    rw [List.cons_append, takeAtRule, takeAtRule, if_pos hm, if_pos hm]
    · exact hc
    · exact hc
  | case4 c cs hc hm ih =>
    have hcurly := isCurly_of_ne hc
    have h : ∃ d ∈ cs, d.Ends := by
      obtain ⟨d, hd, he⟩ := h
      rcases List.mem_cons.1 hd with rfl | hd
      · rcases he with he | he
        · exact absurd he (by simp [hcurly])
        · exact absurd he hm
      · exact ⟨d, hd, he⟩
    rw [List.cons_append, takeAtRule, takeAtRule, if_neg hm, if_neg hm, ih h]
    · exact hc
    · exact hc

theorem takeQualified_suffix (cs : List Component) : (takeQualified cs).2.2 <:+ cs := by
  induction cs using takeQualified.induct with
  | case1 => exact List.suffix_rfl
  | case2 p content cs => exact List.suffix_cons _ _
  | case3 c cs hc ih =>
    rw [takeQualified]
    · exact ih.trans (List.suffix_cons c cs)
    · exact hc

theorem takeAtRule_suffix (cs : List Component) : (takeAtRule cs).2.2 <:+ cs := by
  induction cs using takeAtRule.induct with
  | case1 => exact List.suffix_rfl
  | case2 p content cs => exact List.suffix_cons _ _
  | case3 c cs hc hm =>
    rw [takeAtRule, if_pos hm]
    · exact List.suffix_cons c cs
    · exact hc
  | case4 c cs hc hm ih =>
    rw [takeAtRule, if_neg hm]
    · exact ih.trans (List.suffix_cons c cs)
    · exact hc

theorem ends_of_suffix {cs ds : List Component} (h : ∀ c ∈ cs.getLast?, c.Ends) (hs : ds <:+ cs) :
    ∀ c ∈ ds.getLast?, c.Ends := by
  obtain ⟨t, rfl⟩ := hs
  intro c hc
  have hn : ds ≠ [] := by
    rintro rfl
    cases hc
  exact h c (by rwa [List.getLast?_append_of_ne_nil _ hn])

/-- Components that end a rule, and leave none unfinished, form their rules whatever stands behind them. -/
theorem ofComponents_append {cs : List Component} (hend : ∀ c ∈ cs.getLast?, c.Ends)
    (hf : ∀ q, .unfinished q ∉ ofComponents cs) (ds : List Component) :
    ofComponents (cs ++ ds) = ofComponents cs ++ ofComponents ds := by
  induction hl : cs.length using Nat.strongRecOn generalizing cs with
  | ind n ih =>
  subst hl
  cases cs with
  | nil => simp [ofComponents]
  | cons c cs =>
    have hlt : cs.length < (c :: cs).length := Nat.lt_succ_self _
    have htail := ends_of_suffix hend (List.suffix_cons c cs)
    rw [List.cons_append]
    by_cases ht : c.isTrivia = true
    · rw [ofComponents_of_isTrivia ht] at hf ⊢
      rw [ofComponents_of_isTrivia ht, ih _ hlt htail (fun q hq => hf q (List.mem_cons_of_mem _ hq)) rfl]
      rfl
    by_cases hm : c.isHtmlMark = true
    · rw [ofComponents_of_isHtmlMark hm] at hf ⊢
      rw [ofComponents_of_isHtmlMark hm, ih _ hlt htail hf rfl]
    by_cases ha : ∃ p name, c = .leaf p (.atKeyword name)
    · obtain ⟨p, name, rfl⟩ := ha
      have hmem : ∃ d ∈ cs, d.Ends := by
        cases hcs : cs.getLast? with
        | none =>
          obtain rfl := List.getLast?_eq_none_iff.1 hcs
          rcases hend _ rfl with h | h <;> cases h
        | some d => exact ⟨d, List.mem_of_getLast? hcs, htail d hcs⟩
      have hle := takeAtRule_rest_length cs
      rw [ofComponents_of_atKeyword] at hf ⊢
      rw [ofComponents_of_atKeyword, takeAtRule_append_of_mem hmem,
        ih _ (by omega) (ends_of_suffix htail (takeAtRule_suffix cs)) (fun q hq => hf q (List.mem_cons_of_mem _ hq)) rfl]
      rfl
    · have hne (p : Position) (name : Text) (h : c = .leaf p (.atKeyword name)) : False := ha ⟨p, name, h⟩
      rw [ofComponents_of_ne (by simpa using ht) (by simpa using hm) hne] at hf ⊢
      have hmem : ∃ d ∈ c :: cs, d.isCurly = true := by
        by_contra hn
        obtain ⟨q, hq, -⟩ := exists_unfinished fun d hd => by simpa using fun h => hn ⟨d, hd, h⟩
        exact hf q (hq ▸ List.mem_cons_self)
      have happ := takeQualified_append_of_mem hmem ds
      have hle := takeQualified_rest_length (c :: cs)
      have hq : ofQualified c (cs ++ ds) = ofQualified c cs := by
        rw [List.cons_append] at happ
        simp only [ofQualified, happ]
      rw [ofComponents_of_ne (by simpa using ht) (by simpa using hm) hne, hq, ← List.cons_append, happ,
        ih _ (by simp only [List.length_cons, Nat.add_sub_cancel] at hle ⊢; omega)
          (ends_of_suffix hend (takeQualified_suffix _)) (fun q hq => hf q (List.mem_cons_of_mem _ hq)) rfl]
      rfl

theorem uses?_of_unfinished {media : Option Text} {rs : List Rule} {us : List Use} (h : uses? media rs = some us)
    (q : Position) : .unfinished q ∉ rs := by
  intro hq
  obtain ⟨a, b, rfl⟩ := List.append_of_mem hq
  rw [uses?_append] at h
  cases uses? media a <;> simp [uses?] at h

end Rule

/-- The selectors of a text with their media, if it is a sheet. -/
def usesOf (s : Text) : Option (List Use) := Rule.uses? none (Rule.ofComponents (values (lexemes s)))

theorem usesOf_nil : usesOf [] = some [] := by
  rw [usesOf, lexemes_nil, show values [] = [] from rfl, Rule.ofComponents, Rule.uses?]

theorem uses?_dropWhile (media : Option Text) (cs : List Component) :
    Rule.uses? media (Rule.ofComponents (cs.dropWhile Component.isTrivia)) = Rule.uses? media (Rule.ofComponents cs) := by
  induction cs with
  | nil => rfl
  | cons c cs ih =>
    by_cases hc : c.isTrivia = true
    · rw [List.dropWhile_cons_of_pos hc, ih, Rule.ofComponents_of_isTrivia hc, Rule.uses?]
    · rw [List.dropWhile_cons_of_neg hc]

/-- Spacing before a text has no uses. -/
theorem Spacing.usesOf_append {gap : Text} (h : Spacing gap) (v : Text) : usesOf (gap ++ v) = usesOf v := by
  rw [usesOf, ← uses?_dropWhile, dropWhile_values, h.core_lexemes, ← dropWhile_values, uses?_dropWhile, usesOf]

/-- The uses of a shut text stay when another text follows, and those of that text come behind them. -/
theorem Shut.usesOf_append {s : Text} (h : Shut s) {us : List Use} (hu : usesOf s = some us) (v : Text) :
    usesOf (s ++ v) = (usesOf v).map (us ++ ·) := by
  obtain ⟨cs, c, hv, hc⟩ := h.exists_values
  have hend : ∀ d ∈ (values (lexemes s)).getLast?, d.Ends := by
    intro d hd
    rw [hv, List.getLast?_concat] at hd
    obtain rfl := Option.some.inj hd
    exact hc
  rw [usesOf, h.values_append, Rule.ofComponents_append hend (Rule.uses?_of_unfinished hu), Rule.uses?_append, ← usesOf,
    ← usesOf, hu]
  rfl

theorem Sheet.usesOf_of_parse {css : Text} {sheet : Sheet} (h : Sheet.parse css = .ok sheet) :
    usesOf (preprocess css) = some sheet.uses := by
  obtain ⟨cs, hc, hr⟩ := Sheet.parse_eq_ok_iff.1 h
  have hu := LinedText.uses?_read (LinedText.ofText (normalizeNewlines css)) (Rule.ofComponents cs) []
    (normalizeNewlines css).length none
  rw [hr] at hu
  rw [usesOf, ← preprocess_normalizeNewlines, ← placelessAll_of_components hc, Rule.ofComponents_placelessAll,
    Rule.uses?_placeless, ← hu]
  rfl

/-- A text is a sheet if its numbers are short enough and its rules have uses. -/
theorem Sheet.exists_parse {css : Text} (hs : tooLong? (preprocess css) = none)
    {us : List Use} (hu : usesOf (preprocess css) = some us) : ∃ sheet, Sheet.parse css = .ok sheet ∧ sheet.uses = us := by
  rw [← preprocess_normalizeNewlines] at hs hu
  obtain ⟨cs, hc⟩ := exists_components_iff.2 hs
  rw [usesOf, ← placelessAll_of_components hc, Rule.ofComponents_placelessAll, Rule.uses?_placeless] at hu
  have hread := LinedText.uses?_read (LinedText.ofText (normalizeNewlines css)) (Rule.ofComponents cs) []
    (normalizeNewlines css).length none
  rw [hu] at hread
  obtain ⟨r, hr, hus⟩ := Option.map_eq_some_iff.1 hread
  refine ⟨⟨r.1, r.2⟩, Sheet.parse_eq_ok_iff.2 ⟨cs, hc, ?_⟩, hus⟩
  generalize (LinedText.ofText (normalizeNewlines css)).read _ _ _ = x at hr ⊢
  cases x with
  | error e => cases hr
  | ok x => rw [Option.some.inj hr]

end StylePrune.Css
