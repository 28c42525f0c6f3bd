import StylePrune.Text.Blank

/-!
Spacing in texts: what stripping takes away, and that what is stripped and collapsed stays so.
-/

set_option autoImplicit false

namespace StylePrune

section

variable {α : Type} (p : α → Bool) (l : List α)

theorem exists_trim_append : ∃ a b, l = a ++ ((l.dropWhile p).reverse.dropWhile p).reverse ++ b ∧
    (∀ x ∈ a, p x = true) ∧ ∀ x ∈ b, p x = true := by
  have hl := List.takeWhile_append_dropWhile (p := p) (l := l)
  have hr := List.takeWhile_append_dropWhile (p := p) (l := (l.dropWhile p).reverse)
  refine ⟨l.takeWhile p, ((l.dropWhile p).reverse.takeWhile p).reverse, ?_, ?_, ?_⟩
  · have hr' := congrArg List.reverse hr
    simp only [List.reverse_append, List.reverse_reverse] at hr'
    rw [List.append_assoc, hr', hl]
  · exact List.all_eq_true.1 List.all_takeWhile
  · exact fun x hx => List.all_eq_true.1 List.all_takeWhile x (List.mem_reverse.1 hx)

theorem head?_trim : ∀ x ∈ ((l.dropWhile p).reverse.dropWhile p).reverse.head?, p x = false := by
  intro x hx
  -- trimming on the right keeps the first element unless nothing is left
  have hp : ((l.dropWhile p).reverse.dropWhile p).reverse <+: l.dropWhile p := by
    simpa using List.reverse_prefix.2 (List.dropWhile_suffix (l := (l.dropWhile p).reverse) p)
  obtain ⟨t, ht⟩ := hp
  have hh : (l.dropWhile p).head? = some x := by
    rw [← ht]
    cases hs : ((l.dropWhile p).reverse.dropWhile p).reverse with
    | nil => simp [hs] at hx
    | cons y u => simpa [hs] using hx
  have := List.head?_dropWhile_not p l
  simpa [hh] using this

theorem getLast?_trim : ∀ x ∈ ((l.dropWhile p).reverse.dropWhile p).reverse.getLast?, p x = false := by
  intro x hx
  have := List.head?_dropWhile_not p (l.dropWhile p).reverse
  rw [List.getLast?_reverse, Option.mem_def] at hx
  simpa [hx] using this

end

namespace Text

/-- Neither the first nor the last character is blank. -/
def IsTrimmed (s : Text) : Prop :=
  (∀ c ∈ s.head?, isBlank c = false) ∧ (∀ c ∈ s.getLast?, isBlank c = false)

/-- Blanks stand alone and are spaces. -/
def IsCollapsed : Text → Prop
  | [] => True
  | c :: s => (isBlank c = true → c = .char ' ' ∧ ∀ d ∈ s.head?, isBlank d = false) ∧ IsCollapsed s

theorem trimLeft_of_head? {p : CodePoint → Bool} {s : Text} (h : ∀ c ∈ s.head?, p c = false) :
    trimLeft p s = s := by
  cases s with
  | nil => rfl
  | cons c s => simp [trimLeft, h c rfl]

theorem strip_of_isTrimmed {s : Text} (h : s.IsTrimmed) : strip s = s := by
  have hr : trimLeft isBlank s.reverse = s.reverse :=
    trimLeft_of_head? fun c hc => h.2 c (by simpa using hc)
  rw [strip, trim, trimLeft_of_head? h.1, trimRight]
  simpa [trimLeft] using congrArg List.reverse hr

/-- Stripping takes blanks away from both ends. -/
theorem exists_strip_append (s : Text) :
    ∃ a b, s = a ++ strip s ++ b ∧ (∀ c ∈ a, isBlank c = true) ∧ ∀ c ∈ b, isBlank c = true :=
  exists_trim_append isBlank s

theorem isTrimmed_strip (s : Text) : (strip s).IsTrimmed := ⟨head?_trim isBlank s, getLast?_trim isBlank s⟩

@[simp] theorem strip_strip (s : Text) : strip (strip s) = strip s :=
  strip_of_isTrimmed (isTrimmed_strip s)

theorem IsCollapsed.of_append {s t : Text} (h : (s ++ t).IsCollapsed) : s.IsCollapsed := by
  induction s with
  | nil => trivial
  | cons c s ih =>
    refine ⟨fun hb => ⟨(h.1 hb).1, fun d hd => (h.1 hb).2 d ?_⟩, ih h.2⟩
    cases s with
    | nil => simp at hd
    | cons e s => simpa using hd

theorem IsCollapsed.of_append_right {s t : Text} (h : (s ++ t).IsCollapsed) : t.IsCollapsed := by
  induction s with
  | nil => exact h
  | cons c s ih => exact ih h.2

theorem IsCollapsed.strip {s : Text} (h : s.IsCollapsed) : (Text.strip s).IsCollapsed := by
  obtain ⟨a, b, hs, -, -⟩ := exists_strip_append s
  rw [hs] at h
  exact h.of_append.of_append_right

theorem head?_collapseBlanks (s : Text) :
    (collapseBlanks s).head? = s.head?.map fun c => if isBlank c then .char ' ' else c := by
  fun_induction collapseBlanks s with
  | case1 => rfl
  | case2 c hc d s hd ih => simpa [hc, hd] using ih
  | case3 c hc d s hd ih => simp [hc]
  | case4 c hc => simp [hc]
  | case5 c s hc ih => simp [hc]

theorem isCollapsed_collapseBlanks (s : Text) : (collapseBlanks s).IsCollapsed := by
  fun_induction collapseBlanks s with
  | case1 => trivial
  | case2 c hc d s hd ih => exact ih
  | case3 c hc d s hd ih =>
    refine ⟨fun _ => ⟨rfl, fun e he => ?_⟩, ih⟩
    rw [head?_collapseBlanks] at he
    have : d = e := by simpa [hd] using he
    simpa [this] using hd
  | case4 c hc => exact ⟨fun _ => ⟨rfl, by simp⟩, trivial⟩
  | case5 c s hc ih => exact ⟨fun hb => absurd hb hc, ih⟩

theorem collapseBlanks_of_isCollapsed {s : Text} (h : s.IsCollapsed) : collapseBlanks s = s := by
  fun_induction collapseBlanks s with
  | case1 => rfl
  | case2 c hc d s hd ih => simp [(h.1 hc).2 d rfl] at hd
  | case3 c hc d s hd ih => rw [ih h.2, (h.1 hc).1]
  | case4 c hc => rw [(h.1 hc).1]
  | case5 c s hc ih => rw [ih h.2]

theorem mem_collapseBlanks_of_not {s : Text} {c : CodePoint} (hc : isBlank c = false) (h : c ∈ s) :
    c ∈ collapseBlanks s := by
  fun_induction collapseBlanks s with
  | case1 => cases h
  | case2 d hd e s he ih =>
    rcases List.mem_cons.1 h with rfl | h
    · simp [hc] at hd
    · exact ih h
  | case3 d hd e s he ih =>
    rcases List.mem_cons.1 h with rfl | h
    · simp [hc] at hd
    · exact List.mem_cons_of_mem _ (ih h)
  | case4 d hd =>
    obtain rfl := List.mem_singleton.1 h
    simp [hc] at hd
  | case5 d s hd ih =>
    rcases List.mem_cons.1 h with rfl | h
    · exact List.mem_cons_self
    · exact List.mem_cons_of_mem _ (ih h)

theorem exists_of_collapseBlanks_eq_append {s t b : Text} (h : collapseBlanks s = t ++ b)
    (ht : ∀ c ∈ t, isBlank c = false) (hb : ∀ c ∈ b, isBlank c = true) :
    ∃ b', s = t ++ b' ∧ ∀ c ∈ b', isBlank c = true := by
  induction t generalizing s with
  | nil =>
    refine ⟨s, rfl, fun c hc => ?_⟩
    by_cases hcb : isBlank c = true
    · exact hcb
    · exact hb c (by simpa [h] using mem_collapseBlanks_of_not (by simpa using hcb) hc)
  | cons c t ih =>
    have hc := ht c List.mem_cons_self
    have hhead : s.head?.map (fun d => if isBlank d then .char ' ' else d) = some c := by
      rw [← head?_collapseBlanks, h]
      rfl
    cases s with
    | nil => cases hhead
    | cons d s =>
      by_cases hd : isBlank d = true
      · simp only [List.head?_cons, Option.map_some, hd, if_true, Option.some.injEq] at hhead
        rw [← hhead] at hc
        exact absurd hc (by decide)
      · obtain rfl : d = c := by simpa [hd] using hhead
        have hcs : collapseBlanks (d :: s) = d :: collapseBlanks s := by rw [collapseBlanks.eq_def]; simp [hd]
        rw [hcs] at h
        obtain ⟨b', rfl, hb'⟩ := ih (List.cons.inj h).2 fun e he => ht e (List.mem_cons_of_mem d he)
        exact ⟨b', rfl, hb'⟩

/-- Where collapsing leaves blanks around a text without blanks, there were blanks before. -/
theorem exists_of_collapseBlanks_eq {s a t b : Text} (h : collapseBlanks s = a ++ t ++ b)
    (ha : ∀ c ∈ a, isBlank c = true) (hb : ∀ c ∈ b, isBlank c = true) (ht : ∀ c ∈ t, isBlank c = false)
    (hn : t ≠ []) : ∃ a' b', s = a' ++ t ++ b' ∧ (∀ c ∈ a', isBlank c = true) ∧ ∀ c ∈ b', isBlank c = true := by
  obtain ⟨c, t, rfl⟩ := List.exists_cons_of_ne_nil hn
  have hc := ht c List.mem_cons_self
  have blank {d : CodePoint} (hd : isBlank d = true) {s : Text}
      (hs : ∃ a' b', s = a' ++ c :: t ++ b' ∧ (∀ c ∈ a', isBlank c = true) ∧ ∀ c ∈ b', isBlank c = true) :
      ∃ a' b', d :: s = a' ++ c :: t ++ b' ∧ (∀ c ∈ a', isBlank c = true) ∧ ∀ c ∈ b', isBlank c = true := by
    obtain ⟨a', b', rfl, ha', hb'⟩ := hs
    exact ⟨d :: a', b', rfl, by simpa [hd] using ha', hb'⟩
  have space : isBlank (.char ' ') ≠ false := by decide
  fun_induction collapseBlanks s generalizing a with
  | case1 => simp at h
  | case2 d hd e s he ih => exact blank hd (ih ha h)
  | case3 d hd e s he ih =>
    cases a with
    | nil => exact absurd ((List.cons.inj h).1 ▸ hc) space
    | cons f a => exact blank hd (ih (fun g hg => ha g (List.mem_cons_of_mem f hg)) (List.cons.inj h).2)
  | case4 d hd =>
    cases a with
    | nil => exact absurd ((List.cons.inj h).1 ▸ hc) space
    | cons f a => simp at h
  | case5 d s hd ih =>
    cases a with
    | nil =>
      obtain ⟨rfl, hs⟩ := List.cons.inj h
      obtain ⟨b', rfl, hb'⟩ := exists_of_collapseBlanks_eq_append (t := t) hs (fun e he => ht e (List.mem_cons_of_mem d he)) hb
      exact ⟨[], b', rfl, by simp, hb'⟩
    | cons f a => exact absurd (ha d (by rw [(List.cons.inj h).1]; exact List.mem_cons_self)) hd

theorem strip_of_append {a s b : Text} (ha : ∀ c ∈ a, isBlank c = true) (hb : ∀ c ∈ b, isBlank c = true)
    (hs : s.IsTrimmed) (hn : s ≠ []) : strip (a ++ s ++ b) = s := by
  have hl : trimLeft isBlank (s ++ b) = s ++ b := by
    refine trimLeft_of_head? fun c hc => hs.1 c ?_
    cases s with
    | nil => exact absurd rfl hn
    | cons d s => exact hc
  have hr : trimLeft isBlank s.reverse = s.reverse :=
    trimLeft_of_head? fun c hc => hs.2 c (by simpa using hc)
  simp only [trimLeft] at hl hr
  simp only [strip, trim, trimRight, trimLeft, List.append_assoc]
  rw [List.dropWhile_append_of_pos ha, hl, List.reverse_append,
    List.dropWhile_append_of_pos (by simpa using hb), hr, List.reverse_reverse]

end Text
end StylePrune
