import StylePrune.Path

/-!
A path's last name and what stands before it, against all the names along the path.
-/

set_option autoImplicit false

namespace StylePrune

namespace Text

variable {c : CodePoint}

theorem splitWhen_ne_nil (p : CodePoint → Bool) (s : Text) : splitWhen p s ≠ [] := by
  cases s with
  | nil => simp [splitWhen]
  | cons c s =>
    rw [splitWhen]
    split
    · simp
    · split <;> simp

theorem exists_splitOn_concat (c : CodePoint) (s : Text) : ∃ init last, splitOn c s = init ++ [last] := by
  obtain ⟨init, last, h⟩ := (List.eq_nil_or_concat (splitOn c s)).resolve_left (splitWhen_ne_nil _ s)
  exact ⟨init, last, h.trans List.concat_eq_append⟩

theorem splitOn_append (c : CodePoint) (s t : Text) : splitOn c (s ++ c :: t) = splitOn c s ++ splitOn c t := by
  unfold splitOn
  induction s with
  | nil => simp [splitWhen]
  | cons a s ih =>
    rw [List.cons_append, splitWhen, splitWhen, ih]
    by_cases ha : a = c
    · simp [ha]
    · cases hs : splitWhen (· = c) s with
      | nil => exact absurd hs (splitWhen_ne_nil _ s)
      | cons w ws => simp [ha]

theorem splitOn_of_not_mem {s : Text} (h : c ∉ s) : splitOn c s = [s] := by
  unfold splitOn
  induction s with
  | nil => rfl
  | cons a s ih =>
    obtain ⟨ha, hs⟩ := not_or.1 (mt List.mem_cons.2 h)
    rw [splitWhen, ih hs]
    simp [Ne.symm ha]

theorem splitOn_append_replicate (s : Text) (n : Nat) :
    splitOn c (s ++ List.replicate n c) = splitOn c s ++ List.replicate n [] := by
  induction n generalizing s with
  | zero => simp
  | succ n ih =>
    have hn : splitOn c (List.replicate n c) = [] :: List.replicate n [] := ih []
    rw [List.replicate_succ, splitOn_append, hn, List.replicate_succ]

theorem cutAt?_singleton (s : Text) : match cutAt? [c] s with
    | some (a, r) => s = a ++ c :: r ∧ c ∉ a
    | none => c ∉ s := by
  induction s with
  | nil => simp [cutAt?]
  | cons b s ih =>
    rw [cutAt?]
    by_cases hb : c = b
    · simp [after?, hb]
    · simp only [after?, if_neg hb]
      cases hs : cutAt? [c] s with
      | none => simpa [hs, hb] using ih
      | some p => simpa [hs, hb] using ih

theorem exists_trimRight_append (c : CodePoint) (s : Text) :
    ∃ n, s = trimRight (· = c) s ++ List.replicate n c := by
  have hs := List.takeWhile_append_dropWhile (p := (decide <| · = c)) (l := s.reverse)
  have hall : s.reverse.takeWhile (· = c) = List.replicate (s.reverse.takeWhile (· = c)).length c :=
    List.eq_replicate_of_mem fun a ha => by simpa using List.all_eq_true.1 List.all_takeWhile a ha
  refine ⟨(s.reverse.takeWhile (· = c)).length, ?_⟩
  have := congrArg List.reverse hs
  rw [List.reverse_append, List.reverse_reverse, hall, List.reverse_replicate] at this
  exact this.symm

end Text

/-- The last name, and before it the same names as in the first part, slashes at its end apart. -/
theorem Path.exists_split (path : Text) : ∃ ns i j,
    Text.splitOn '/' path = ns ++ List.replicate i [] ++ [(split path).2] ∧
      Text.splitOn '/' (split path).1 = ns ++ List.replicate j [] := by
  have hcut := Text.cutAt?_singleton (c := '/') path.reverse
  unfold split Text.cutAtLast?
  rw [List.reverse_singleton]
  cases hc : Text.cutAt? ['/'] path.reverse with
  | none =>
    rw [hc] at hcut
    exact ⟨[], 0, 1, by simp [Text.splitOn_of_not_mem (by simpa using hcut)], rfl⟩
  | some p =>
    obtain ⟨name, before⟩ := p
    simp only [hc] at hcut
    obtain ⟨hp, hname⟩ := hcut
    have hpath : path = before.reverse ++ CodePoint.char '/' :: name.reverse := by
      simpa using congrArg List.reverse hp
    have hlast : Text.splitOn '/' path = Text.splitOn '/' before.reverse ++ [name.reverse] := by
      have hn : CodePoint.char '/' ∉ name.reverse := by simpa using hname
      rw [hpath, Text.splitOn_append, Text.splitOn_of_not_mem hn]
    have slashes (n : Nat) : Text.splitOn '/' (List.replicate n (.char '/')) = List.replicate (n + 1) [] :=
      Text.splitOn_append_replicate [] n
    by_cases hall : before.reverse.all (· = .char '/') = true
    · have hb : before.reverse = List.replicate before.reverse.length (.char '/') :=
        List.eq_replicate_of_mem fun a ha => by simpa using List.all_eq_true.1 hall a ha
      generalize before.reverse.length = n at hb
      refine ⟨[], n + 1, n + 2, ?_, ?_⟩
      · rw [hlast, hb, slashes, List.nil_append]
        rfl
      · simp only [Option.map_some, hall, if_true]
        rw [hb, ← List.replicate_succ', slashes, List.nil_append]
    · obtain ⟨n, hn⟩ := Text.exists_trimRight_append '/' before.reverse
      refine ⟨Text.splitOn '/' (Text.trimRight (· = .char '/') before.reverse), n, 0, ?_, ?_⟩
      · rw [← Text.splitOn_append_replicate, ← hn, hlast]
        rfl
      · simp [hall]

end StylePrune
