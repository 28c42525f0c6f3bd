import Mathlib
import StylePrune.Sampling.Duplicates

/-!
Repeated sightings by their places. One pass over the sightings finds the selectors of exactly those that stand
somewhere before under the same media, and the long ones among their longest stretches.
-/

set_option autoImplicit false

namespace StylePrune.Sampling

/-- What a sighting is a sighting of, in whatever file. -/
def Sighting.use (x : Sighting) : Css.Use := (x.selector, x.media)

/-- Some sighting before `i` has the selector and the media of sighting `i`. -/
def Repeats (found : List Sighting) (i : Nat) : Prop :=
  ∃ x, found[i]? = some x ∧ ∃ j < i, ∃ y, found[j]? = some y ∧ y.use = x.use

/-- The selectors of the sightings from `i` on, up to `j`. -/
def selectorsBetween (found : List Sighting) (i j : Nat) : List Text :=
  ((found.take j).drop i).map Sighting.selector

/-- Sightings from `i` on, up to `j`, repeat others, and neither the one before them nor the one behind them does. -/
structure Stretch (found : List Sighting) (i j : Nat) : Prop where
  lt : i < j
  repeats : ∀ k, i ≤ k → k < j → Repeats found k
  before : ∀ k, k + 1 = i → ¬ Repeats found k
  behind : ¬ Repeats found j

section Places

variable {found : List Sighting} {x : Sighting} {i j k : Nat}

theorem Repeats.lt_length (h : Repeats found k) : k < found.length := by
  obtain ⟨x, hx, -⟩ := h
  exact (List.getElem?_eq_some_iff.1 hx).1

theorem not_repeats_length (found : List Sighting) : ¬ Repeats found found.length :=
  fun h => Nat.lt_irrefl _ h.lt_length

theorem repeats_length_iff : Repeats (found ++ [x]) found.length ↔ x.use ∈ found.map Sighting.use := by
  simp only [Repeats, List.getElem?_concat_length, Option.some.injEq, exists_eq_left', List.mem_map]
  constructor
  · rintro ⟨j, hj, y, hy, hu⟩
    rw [List.getElem?_append_left hj] at hy
    exact ⟨y, List.mem_of_getElem? hy, hu⟩
  · rintro ⟨y, hy, hu⟩
    obtain ⟨j, hj, rfl⟩ := List.getElem_of_mem hy
    exact ⟨j, hj, _, by rw [List.getElem?_append_left hj, List.getElem?_eq_getElem hj], hu⟩

/-- Whether a sighting repeats another one is settled by the sightings up to it. -/
theorem repeats_append_iff (hk : k < found.length) : Repeats (found ++ [x]) k ↔ Repeats found k := by
  simp only [Repeats, List.getElem?_append_left hk]
  refine exists_congr fun y => and_congr_right fun _ => exists_congr fun j => and_congr_right fun hj => ?_
  rw [List.getElem?_append_left (Nat.lt_trans hj hk)]

theorem Stretch.le_length (h : Stretch found i j) : j ≤ found.length := by
  have hlast := (h.repeats (j - 1) (by have := h.lt; omega) (by have := h.lt; omega)).lt_length
  omega

theorem stretch_append_iff (hj : j ≤ found.length) (hb : Repeats (found ++ [x]) j ↔ Repeats found j) :
    Stretch (found ++ [x]) i j ↔ Stretch found i j := by
  constructor
  · intro h
    have := h.lt
    exact ⟨h.lt, fun k hi hk => (repeats_append_iff (by omega)).1 (h.repeats k hi hk),
      fun k hk => mt (repeats_append_iff (by omega)).2 (h.before k hk), mt hb.2 h.behind⟩
  · intro h
    have := h.lt
    exact ⟨h.lt, fun k hi hk => (repeats_append_iff (by omega)).2 (h.repeats k hi hk),
      fun k hk => mt (repeats_append_iff (by omega)).1 (h.before k hk), mt hb.1 h.behind⟩

theorem selectorsBetween_append (hj : j ≤ found.length) :
    selectorsBetween (found ++ [x]) i j = selectorsBetween found i j := by
  rw [selectorsBetween, List.take_append_of_le_length hj, selectorsBetween]

theorem selectorsBetween_concat (hi : i ≤ found.length) :
    selectorsBetween (found ++ [x]) i (found.length + 1) = selectorsBetween found i found.length ++ [x.selector] := by
  simp [selectorsBetween, List.take_of_length_le, List.drop_append_of_le_length hi]

theorem length_selectorsBetween (hj : j ≤ found.length) : (selectorsBetween found i j).length = j - i := by
  simp [selectorsBetween, Nat.min_eq_left hj]

end Places

instance (found : List Sighting) (i : Nat) : Decidable (Repeats found i) :=
  decidable_of_iff (found[i]?.any fun x => (List.range i).any fun j => found[j]?.any fun y => y.use = x.use) (by
    simp only [Repeats, Option.any_eq_true, List.any_eq_true, List.mem_range, decide_eq_true_eq])

/-- The selectors of the sightings that repeat others. -/
def repeatedSelectors (found : List Sighting) : List Text :=
  ((List.range found.length).filter (Repeats found ·)).filterMap fun i => found[i]?.map Sighting.selector

theorem repeatedSelectors_append (found : List Sighting) (x : Sighting) : repeatedSelectors (found ++ [x]) =
    repeatedSelectors found ++ if x.use ∈ found.map Sighting.use then [x.selector] else [] := by
  have hold : (List.range found.length).filter (Repeats (found ++ [x]) ·) =
      (List.range found.length).filter (Repeats found ·) :=
    List.filter_congr fun k hk => decide_eq_decide.2 (repeats_append_iff (List.mem_range.1 hk))
  rw [repeatedSelectors, List.length_append, List.length_singleton, List.range_succ, List.filter_append, hold,
    List.filterMap_append, repeatedSelectors]
  congr 1
  · refine List.filterMap_congr fun i hi => ?_
    rw [List.getElem?_append_left (List.mem_range.1 (List.mem_filter.1 hi).1)]
  · rw [List.filter_singleton, decide_eq_decide.2 repeats_length_iff]
    by_cases hx : x.use ∈ found.map Sighting.use
    · rw [decide_eq_true hx, if_pos hx, cond_true]
      simp
    · rw [decide_eq_false hx, if_neg hx, cond_false, List.filterMap_nil]

namespace Duplicates.Scan

/-- The stretches among the sightings so far that are long enough, told apart by a test on where they end. -/
structure Closes (found : List Sighting) (ends : Nat → Prop) (runs : List (List Text)) (stretches : List (Nat × Nat)) :
    Prop where
  runs : runs = stretches.map fun a => selectorsBetween found a.1 a.2
  ordered : stretches.Pairwise fun a b => a.2 < b.1
  mem_iff : ∀ i j, (i, j) ∈ stretches ↔ Stretch found i j ∧ ends j ∧ shortRun < j - i

/-- What the pass knows of the sightings it has seen. The stretch under way starts at `i`. -/
structure Tracks (found : List Sighting) (s : Scan) : Prop where
  seen : ∀ u, u ∈ s.seen ↔ u ∈ found.map Sighting.use
  nodup : s.seen.Nodup
  selectors : s.found.selectors = repeatedSelectors found
  count : s.found.selectors.length + s.seen.length = found.length
  run : ∃ i, i ≤ found.length ∧ s.run = selectorsBetween found i found.length ∧
    (∀ k, i ≤ k → k < found.length → Repeats found k) ∧ ∀ k, k + 1 = i → ¬ Repeats found k
  closed : ∃ stretches, Closes found (· < found.length) s.found.longRuns stretches

theorem tracks_start : Tracks [] start where
  seen := by simp [start]
  nodup := List.nodup_nil
  selectors := rfl
  count := rfl
  run := ⟨0, Nat.le_refl 0, rfl, by simp, by simp⟩
  closed := ⟨[], rfl, .nil, by simp⟩

variable {found : List Sighting} {s : Scan} {x : Sighting}

/-- A stretch under way ends where the sightings do. -/
theorem Tracks.closeRun (h : Tracks found s) :
    ∃ stretches, Closes found (· ≤ found.length) s.closeRun.found.longRuns stretches := by
  obtain ⟨i, hi, hrun, hall, hbefore⟩ := h.run
  obtain ⟨stretches, hc⟩ := h.closed
  have hlength : s.run.length = found.length - i := by rw [hrun, length_selectorsBetween (Nat.le_refl _)]
  -- stretches that end at the end all start at `i`
  have hsame {a : Nat} (ha : Stretch found a found.length) : a = i := by
    have := ha.lt
    rcases Nat.lt_trichotomy a i with hl | rfl | hl
    · exact absurd (ha.repeats (i - 1) (by omega) (by omega)) (hbefore (i - 1) (by omega))
    · rfl
    · exact absurd (hall (a - 1) (by omega) (by omega)) (ha.before (a - 1) (by omega))
  by_cases hlong : shortRun < s.run.length
  · have hmem : Stretch found i found.length := ⟨by omega, hall, hbefore, not_repeats_length found⟩
    refine ⟨stretches ++ [(i, found.length)], ?_, ?_, fun a b => ?_⟩
    · rw [Scan.closeRun, if_pos hlong, hc.runs, hrun, List.map_append, List.map_singleton]
    · refine List.pairwise_append.2 ⟨hc.ordered, List.pairwise_singleton .., ?_⟩
      rintro ⟨a, b⟩ hab c hnew
      obtain rfl := List.mem_singleton.1 hnew
      obtain ⟨hs, hb, -⟩ := (hc.mem_iff a b).1 hab
      -- the stretch under way starts behind all that ended before
      by_contra hle
      exact hs.behind (hall b (by simpa using hle) hb)
    · rw [List.mem_append, hc.mem_iff, List.mem_singleton, Prod.mk.injEq]
      constructor
      · rintro (⟨hs, hb, hl⟩ | ⟨rfl, rfl⟩)
        · exact ⟨hs, Nat.le_of_lt hb, hl⟩
        · exact ⟨hmem, Nat.le_refl _, by omega⟩
      · rintro ⟨hs, hb, hl⟩
        rcases Nat.lt_or_eq_of_le hb with hb | rfl
        · exact .inl ⟨hs, hb, hl⟩
        · exact .inr ⟨hsame hs, rfl⟩
  · refine ⟨stretches, by simp [Scan.closeRun, hlong, hc.runs], hc.ordered, fun a b => ?_⟩
    rw [hc.mem_iff]
    refine and_congr_right fun hs => and_congr_left fun hl => ⟨Nat.le_of_lt, fun hb => ?_⟩
    rcases Nat.lt_or_eq_of_le hb with hb | rfl
    · exact hb
    · obtain rfl := hsame hs
      omega

theorem Closes.append {ends : Nat → Prop} {runs : List (List Text)} {stretches : List (Nat × Nat)}
    (h : Closes found ends runs stretches) (hends : ∀ j, ends j → j ≤ found.length) {ends' : Nat → Prop}
    (hends' : ∀ i j, Stretch (found ++ [x]) i j ∧ ends' j ↔ Stretch found i j ∧ ends j) :
    Closes (found ++ [x]) ends' runs stretches where
  runs := by
    rw [h.runs]
    refine List.map_congr_left fun a ha => (selectorsBetween_append ?_).symm
    exact hends _ ((h.mem_iff a.1 a.2).1 ha).2.1
  ordered := h.ordered
  mem_iff i j := by rw [h.mem_iff, ← and_assoc, ← and_assoc, hends']

theorem Tracks.step (h : Tracks found s) (x : Sighting) : Tracks (found ++ [x]) (s.step x) := by
  have hseen : (x.selector, x.media) ∈ s.seen ↔ x.use ∈ found.map Sighting.use := h.seen x.use
  have hnew (u : Css.Use) : u ∈ (found ++ [x]).map Sighting.use ↔ u ∈ s.seen ∨ u = x.use := by simp [h.seen]
  by_cases hx : x.use ∈ found.map Sighting.use
  · have hrepeat : Repeats (found ++ [x]) found.length := repeats_length_iff.2 hx
    have hstep : s.step x = { s with
        run := s.run ++ [x.selector]
        found.selectors := s.found.selectors ++ [x.selector] } := if_pos (hseen.2 hx)
    obtain ⟨i, hi, hrun, hall, hbefore⟩ := h.run
    obtain ⟨stretches, hc⟩ := h.closed
    rw [hstep]
    refine ⟨fun u => ?_, h.nodup, ?_, ?_, ⟨i, ?_, ?_, fun k hk hl => ?_, fun k hk => ?_⟩, stretches, ?_⟩
    · rw [hnew]
      exact ⟨.inl, fun hu => hu.elim id fun hu => hu ▸ hseen.2 hx⟩
    · rw [repeatedSelectors_append, if_pos hx, h.selectors]
    · have := h.count
      simp only [List.length_append, List.length_singleton]
      omega
    · simp only [List.length_append, List.length_singleton]
      omega
    · rw [List.length_append, List.length_singleton, selectorsBetween_concat hi, hrun]
    · rw [List.length_append, List.length_singleton] at hl
      rcases Nat.lt_or_eq_of_le (Nat.le_of_lt_succ hl) with hl | rfl
      · exact (repeats_append_iff hl).2 (hall k hk hl)
      · exact hrepeat
    · exact mt (repeats_append_iff (by omega)).1 (hbefore k hk)
    · refine hc.append (fun j => Nat.le_of_lt) fun a b => ?_
      simp only [List.length_append, List.length_singleton]
      constructor
      · rintro ⟨hs, hb⟩
        rcases Nat.lt_or_eq_of_le (Nat.le_of_lt_succ hb) with hb | rfl
        · exact ⟨(stretch_append_iff (Nat.le_of_lt hb) (repeats_append_iff hb)).1 hs, hb⟩
        · exact absurd hrepeat hs.behind
      · rintro ⟨hs, hb⟩
        exact ⟨(stretch_append_iff (Nat.le_of_lt hb) (repeats_append_iff hb)).2 hs, Nat.lt_succ_of_lt hb⟩
  · have hfresh : ¬ Repeats (found ++ [x]) found.length := mt repeats_length_iff.1 hx
    have hstep : s.step x = { s.closeRun with seen := s.seen ++ [(x.selector, x.media)] } := if_neg (mt hseen.1 hx)
    obtain ⟨stretches, hc⟩ := h.closeRun
    rw [hstep]
    refine ⟨fun u => ?_, ?_, ?_, ?_, ⟨found.length + 1, ?_, ?_, fun k hk hl => ?_, fun k hk => ?_⟩, stretches, ?_⟩
    · rw [hnew]
      simp [Sighting.use]
    · refine List.nodup_append.2 ⟨h.nodup, List.nodup_singleton _, ?_⟩
      rintro u hu v hv rfl
      exact hx (hseen.1 (List.mem_singleton.1 hv ▸ hu))
    · rw [repeatedSelectors_append, if_neg hx, List.append_nil]
      exact h.selectors
    · have := h.count
      simp only [Scan.closeRun, List.length_append, List.length_singleton]
      omega
    · simp
    · simp [Scan.closeRun, selectorsBetween]
    · simp only [List.length_append, List.length_singleton] at hl
      omega
    · obtain rfl : k = found.length := by omega
      exact hfresh
    · refine hc.append (fun j => id) fun a b => ?_
      simp only [List.length_append, List.length_singleton, Nat.lt_succ_iff]
      refine and_congr_left fun hb => stretch_append_iff hb ?_
      rcases Nat.lt_or_eq_of_le hb with hb | rfl
      · exact repeats_append_iff hb
      · exact iff_of_false hfresh (not_repeats_length found)

theorem tracks_foldl (found : List Sighting) : Tracks found (found.foldl .step start) := by
  induction found using List.reverseRecOn with
  | nil => exact tracks_start
  | append_singleton found x ih =>
    rw [List.foldl_append]
    exact ih.step x

end Duplicates.Scan

/-- The duplicates are the selectors of the sightings that repeat others, in order, and each further sighting is the
first of its use; the long runs are the longest stretches of such sightings that are longer than five, in order. -/
theorem duplicates_exact (found : List Sighting) :
    (duplicates found).selectors = repeatedSelectors found ∧
      (duplicates found).selectors.length + (found.map Sighting.use).toFinset.card = found.length ∧
      ∃ stretches : List (Nat × Nat),
        (duplicates found).longRuns = stretches.map (fun a => selectorsBetween found a.1 a.2) ∧
          stretches.Pairwise (fun a b => a.2 < b.1) ∧
          ∀ i j, (i, j) ∈ stretches ↔ Stretch found i j ∧ 5 < j - i := by
  have h := Duplicates.Scan.tracks_foldl found
  obtain ⟨stretches, hruns, hordered, hmem⟩ := h.closeRun
  refine ⟨h.selectors, ?_, stretches, hruns, hordered, fun i j => ?_⟩
  · have huses : (found.map Sighting.use).toFinset = (found.foldl .step Duplicates.Scan.start).seen.toFinset := by
      ext u
      rw [List.mem_toFinset, List.mem_toFinset, h.seen]
    rw [huses, List.toFinset_card_of_nodup h.nodup]
    exact h.count
  · rw [hmem]
    exact ⟨fun ⟨hs, _, hl⟩ => ⟨hs, hl⟩, fun ⟨hs, hl⟩ => ⟨hs, hs.le_length, hl⟩⟩

/-- Seven sightings of one use: the first is no repetition, and the other six are one stretch. -/
example : duplicates (List.replicate 7 ⟨"a.css", ".x", none⟩) =
    ⟨List.replicate 6 ".x", [List.replicate 6 ".x"]⟩ := by decide

end StylePrune.Sampling
