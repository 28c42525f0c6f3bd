import Mathlib.Tactic.Linarith
import StylePrune.Proofs.Url.Segments

/-!
What a reference is resolved to: itself, the place where it stands, or the one's parts completed with the other's.
Resolving again and again, short references lead to locators whose segments stay short.
-/

set_option autoImplicit false

namespace StylePrune.Url

variable {base ref url : Text} {b r u v : Url} {scheme s : Text} {m : Nat} {c : CodePoint}

/-- The parts that a reference to another place is completed with. -/
structure Completes (b r v : Url) : Prop where
  scheme : v.scheme = r.scheme
  fragment : v.fragment = r.fragment
  parts : v = r ∨ v.netloc = b.netloc ∧
    (v.core = b.core ∧ (v.query = r.query ∨ v.query = b.query) ∨
      v.path = resolvePath (mergeSegments b.path r.path) ∧ v.params = r.params ∧ v.query = r.query)

theorem mem_netlocSchemes (h : scheme ∈ relativeSchemes) : scheme ∈ netlocSchemes := by
  have hall : ∀ s ∈ relativeSchemes, s ∈ netlocSchemes := by decide
  exact hall scheme h

theorem join_eq_ok (h : join base ref = .ok url) : url = ref ∨ url = base ∨
    ∃ b r v, parse base = .ok b ∧ parseUnder b.scheme ref = .ok r ∧ r.scheme ∈ relativeSchemes ∧ Completes b r v ∧
      url = v.render := by
  unfold join at h
  split at h
  · exact .inl (Except.ok.inj h).symm
  · split at h
    · exact .inr (.inl (Except.ok.inj h).symm)
    · cases hb : parse base with
      | error e =>
        rw [hb] at h
        cases h
      | ok b =>
        cases hr : parseUnder b.scheme ref with
        | error e =>
          simp only [hb, bind, Except.bind, hr] at h
          cases h
        | ok r =>
          simp only [hb, bind, Except.bind, hr] at h
          split at h
          · exact .inl (Except.ok.inj h).symm
          · rename_i hscheme
            obtain ⟨-, hrel⟩ := not_or.1 hscheme
            have hrel := not_not.1 hrel
            refine .inr (.inr ⟨b, r, ?_⟩)
            simp only [mem_netlocSchemes hrel, true_and, if_true] at h
            split at h
            · exact ⟨r, rfl, hr, hrel, ⟨rfl, rfl, .inl rfl⟩, (Except.ok.inj h).symm⟩
            · split at h
              · refine ⟨{ r with
                  netloc := b.netloc, path := b.path, params := b.params,
                  query := if r.query = [] then b.query else r.query }, rfl, hr, hrel,
                  ⟨rfl, rfl, .inr ⟨rfl, .inl ⟨rfl, ?_⟩⟩⟩, (Except.ok.inj h).symm⟩
                dsimp only
                split
                · exact .inr rfl
                · exact .inl rfl
              · exact ⟨{ r with netloc := b.netloc, path := resolvePath (mergeSegments b.path r.path) }, rfl, hr, hrel,
                  ⟨rfl, rfl, .inr ⟨rfl, .inr ⟨rfl, rfl, rfl⟩⟩⟩, (Except.ok.inj h).symm⟩

/-- No part is longer than the text. -/
theorem length_le_of_parseUnder (h : parseUnder scheme s = .ok u) :
    u.netloc.length ≤ s.length ∧ u.core.length ≤ s.length ∧ u.query.length ≤ s.length ∧ u.fragment.length ≤ s.length := by
  obtain ⟨-, hnetloc, hquery, hfragment, -⟩ := parseUnder_eq_ok h
  obtain ⟨-, t, -, hcore⟩ := exists_core_of_parseUnder h
  have hsan : (sanitize s).Sublist s := List.filter_sublist.trans (List.dropWhile_sublist _)
  have hscheme : (afterScheme (sanitize s)).Sublist s := by
    obtain ⟨front, hs, -⟩ := exists_scheme_append (sanitize s)
    exact (List.IsSuffix.sublist ⟨front, hs.symm⟩).trans hsan
  have hrest : (afterHost (afterScheme (sanitize s))).Sublist s := by
    obtain ⟨front, hs, -⟩ := exists_host_append (afterScheme (sanitize s))
    exact (List.IsSuffix.sublist ⟨front, hs.symm⟩).trans hscheme
  refine ⟨?_, ?_, ?_, ?_⟩
  · rw [hnetloc, hostOf]
    split
    · rename_i t ht
      have ht' : t.Sublist (afterScheme (sanitize s)) := List.IsSuffix.sublist ⟨_, (Text.eq_append_of_after? ht).symm⟩
      exact ((List.takeWhile_sublist _).trans (ht'.trans hscheme)).length_le
    · exact Nat.zero_le _
  · have hbody : (body (afterHost (afterScheme (sanitize s)))).Sublist s := (List.takeWhile_sublist _).trans hrest
    have hle := hbody.length_le
    rw [hcore, List.length_append] at hle
    omega
  · rw [hquery, queryIn]
    exact ((List.tail_sublist _).trans ((List.dropWhile_sublist _).trans ((List.takeWhile_sublist _).trans hrest))).length_le
  · rw [hfragment]
    exact ((List.tail_sublist _).trans ((List.dropWhile_sublist _).trans hrest)).length_le

theorem mem_of_mem_joinWith {ws : List Text} (h : c ∈ Text.joinWith ['/'] ws) : c = '/' ∨ ∃ w ∈ ws, c ∈ w := by
  induction ws with
  | nil => exact absurd h List.not_mem_nil
  | cons w ws ih =>
    cases ws with
    | nil => exact .inr ⟨w, List.mem_cons_self, h⟩
    | cons w' ws =>
      rw [Text.joinWith, List.append_assoc, List.mem_append, List.mem_append, List.mem_singleton] at h
      rcases h with hc | hc | hc
      · exact .inr ⟨w, List.mem_cons_self, hc⟩
      · exact .inl hc
      · refine (ih hc).imp_right fun h => ?_
        obtain ⟨x, hx, hcx⟩ := h
        exact ⟨x, List.mem_cons_of_mem _ hx, hcx⟩
      · simp

theorem mem_of_mem_resolvePath {p q : Text} (h : c ∈ resolvePath (mergeSegments p q)) : c = '/' ∨ c ∈ p ∨ c ∈ q := by
  obtain ⟨mids, front, last, hs, hmerge, hmem, -, -⟩ := exists_mergeSegments p q
  obtain ⟨ws, e, hws, he, hsub, -⟩ := exists_followed mids last
  rw [hmerge, resolvePath_eq, hws] at h
  split at h
  · exact .inl (List.mem_singleton.1 h)
  · refine (mem_of_mem_joinWith h).imp_right ?_
    rintro ⟨w, hw, hc⟩
    have hpart : w ∈ Text.splitOn '/' p ∨ w ∈ Text.splitOn '/' q ∨ w = [] := by
      rcases List.mem_append.1 hw with hw | hw
      · exact (hmem w (hsub.subset hw)).imp_right .inl
      · obtain rfl := List.mem_singleton.1 hw
        rcases he with rfl | rfl
        · exact .inr (.inl (hs ▸ List.mem_append_right _ (List.mem_singleton_self _)))
        · exact .inr (.inr rfl)
    rcases hpart with hp | hq | rfl
    · exact .inl (Text.mem_of_mem_splitOn hp hc)
    · exact .inr (Text.mem_of_mem_splitOn hq hc)
    · exact absurd hc List.not_mem_nil

theorem Completes.clean (h : Completes b r v) (hb : b.Clean) (hr : r.Clean) : v.Clean := by
  rcases h.parts with rfl | ⟨hnetloc, ⟨hcore, hquery⟩ | ⟨hpath, hparams, hquery⟩⟩
  · exact hr
  · refine ⟨hnetloc ▸ hb.netloc, hcore ▸ hb.core, ?_⟩
    rcases hquery with hq | hq
    · exact hq ▸ hr.query
    · exact hq ▸ hb.query
  · refine ⟨hnetloc ▸ hb.netloc, fun c hc => ?_, hquery ▸ hr.query⟩
    rw [core_eq, behindPath, hparams, hpath] at hc
    rcases List.mem_append.1 hc with hc | hc
    · rcases mem_of_mem_resolvePath hc with rfl | hc | hc
      · decide
      · exact hb.core c (List.mem_append_left _ hc)
      · exact hr.core c (List.mem_append_left _ hc)
    · exact hr.core c (List.mem_append_right _ hc)

/-! ## Segments that stay short -/

/-- A short query, and segments that are short and lead down but for a few. -/
def Tame (m : Nat) (url : Text) : Prop := ∀ u, parse url = .ok u → u.query.length ≤ m ∧ Slim m (unslash u.core)

theorem tame_of_length_le (h : url.length ≤ m) : Tame m url := by
  intro u hu
  obtain ⟨-, hcore, hquery, -⟩ := length_le_of_parseUnder hu
  exact ⟨hquery.trans h, (Slim.of_length_le (hcore.trans h)).of_suffix (unslash_suffix_self _)⟩

/-- Segments no longer than `m`, whatever stands before the first slash and behind the path. -/
theorem Slim.path (h : Slim m (unslash u.core)) (hslash : CodePoint.char '/' ∉ u.params) :
    Slim m (unslash u.path) ∧ ∀ w ∈ Text.splitOn '/' u.path, w.length ≤ m := by
  have hbehind := not_mem_behindPath hslash
  rw [core_eq, unslash_append hbehind] at h
  have hpath := h.of_append hbehind
  exact ⟨hpath, forall_mem_splitOn_of_unslash (Nat.zero_le m) hpath.length_le⟩

/-- Resolved against a tame locator, a short reference means a tame one. -/
theorem Tame.join (hbase : Tame m base) (href : ref.length ≤ m) (h : join base ref = .ok url) : Tame m url := by
  rcases join_eq_ok h with rfl | rfl | ⟨b, r, v, hb, hr, hrel, hv, rfl⟩
  · exact tame_of_length_le href
  · exact hbase
  · obtain ⟨hbquery, hbcore⟩ := hbase b hb
    obtain ⟨-, hrcore, hrquery, -⟩ := length_le_of_parseUnder hr
    obtain ⟨hbslash, -⟩ := exists_core_of_parseUnder hb
    obtain ⟨hrslash, -⟩ := exists_core_of_parseUnder hr
    have hv' : v.query.length ≤ m ∧ Slim m (unslash v.core) := by
      rcases hv.parts with rfl | ⟨-, ⟨hcore, hquery⟩ | ⟨hpath, hparams, hquery⟩⟩
      · exact ⟨hrquery.trans href, (Slim.of_length_le (hrcore.trans href)).of_suffix (unslash_suffix_self _)⟩
      · refine ⟨?_, hcore ▸ hbcore⟩
        rcases hquery with hq | hq
        · exact hq ▸ hrquery.trans href
        · exact hq ▸ hbquery
      · obtain ⟨hslim, -⟩ := slim_merged (hbcore.path hbslash).2 (hrcore.trans href) hrslash hpath hparams
        exact ⟨hquery ▸ hrquery.trans href, hslim.of_suffix (unslash_suffix_self _)⟩
    intro u hu
    have hclean := hv.clean (clean_of_parseUnder hb) (clean_of_parseUnder hr)
    obtain ⟨hquery, t, ht, hcore⟩ := parse_render hclean (hv.scheme ▸ hrel) hu
    exact ⟨hquery ▸ hv'.1, (hv'.2.of_suffix hcore).of_append ht⟩

theorem length_render_le (u : Url) : u.render.length ≤
    u.scheme.length + u.netloc.length + u.core.length + u.query.length + u.fragment.length + 6 := by
  have hrooted : u.rooted.length ≤ u.core.length + 1 := by
    unfold rooted
    split <;> simp
  have hlocation : u.location.length ≤ u.netloc.length + u.core.length + 3 := by
    have hslashes : ("//" : Text).length = 2 := rfl
    unfold location
    split
    · rw [List.length_append, List.length_append, hslashes]
      omega
    · omega
  have hmarks : u.marks.length ≤ u.query.length + u.fragment.length + 2 := by
    unfold marks
    split <;> split <;> simp <;> omega
  have hscheme : (if u.scheme = [] then [] else u.scheme ++ [CodePoint.char ':']).length ≤ u.scheme.length + 1 := by
    split <;> simp
  rw [render_eq, List.length_append, List.length_append]
  omega

/-- A bound on what a short reference means in a place with `k` segments and a host of length `n`. -/
def lengthBound (m n k : Nat) : Nat := (k + m + 2) * (m + 1) + 3 * m + n + 14

theorem Tame.length_join_le {n k : Nat} (hbase : Tame m base)
    (hb : ∀ b, parse base = .ok b → b.netloc.length ≤ n ∧ (Text.splitOn '/' b.path).length ≤ k)
    (href : ref.length ≤ m) (h : Url.join base ref = .ok url) : url = base ∨ url.length ≤ lengthBound m n k := by
  rcases join_eq_ok h with rfl | rfl | ⟨b, r, v, hbp, hr, hrel, hv, rfl⟩
  · refine .inr (href.trans ?_)
    unfold lengthBound
    omega
  · exact .inl rfl
  · obtain ⟨hbquery, hbcore⟩ := hbase b hbp
    obtain ⟨hnetloc, hcount⟩ := hb b hbp
    obtain ⟨hrnetloc, hrcore, hrquery, hrfragment⟩ := length_le_of_parseUnder hr
    obtain ⟨hbslash, -⟩ := exists_core_of_parseUnder hbp
    obtain ⟨hrslash, -⟩ := exists_core_of_parseUnder hr
    have hsmall : m ≤ (k + m + 2) * (m + 1) := by nlinarith
    have hparts : v.netloc.length ≤ m + n ∧ v.core.length ≤ (k + m + 2) * (m + 1) ∧ v.query.length ≤ m := by
      rcases hv.parts with rfl | ⟨hvnetloc, ⟨hcore, hquery⟩ | ⟨hpath, hparams, hquery⟩⟩
      · omega
      · have hsegments : ∀ w ∈ Text.splitOn '/' b.core, w.length ≤ m :=
          forall_mem_splitOn_of_unslash (Nat.zero_le m) hbcore.length_le
        have hlen := Text.length_lt_of_splitOn hsegments
        have hsame : (Text.splitOn '/' b.core).length = (Text.splitOn '/' b.path).length := by
          obtain ⟨init, last, hs⟩ := Text.exists_splitOn_concat '/' b.path
          rw [core_eq, Text.splitOn_concat_append (not_mem_behindPath hbslash) hs, hs]
          simp
        rw [hvnetloc, hcore]
        refine ⟨by omega, by nlinarith, ?_⟩
        rcases hquery with hq | hq <;> rw [hq] <;> omega
      · obtain ⟨hslim, hfew⟩ := slim_merged (hbcore.path hbslash).2 (hrcore.trans href) hrslash hpath hparams
        have hlen := Text.length_lt_of_splitOn hslim.length_le
        rw [hvnetloc, hquery]
        exact ⟨by omega, by nlinarith, by omega⟩
    have hscheme : v.scheme.length ≤ 8 := by
      have hall : ∀ s ∈ relativeSchemes, s.length ≤ 8 := by decide
      exact hv.scheme ▸ hall _ hrel
    have hfragment : v.fragment.length ≤ m := hv.fragment ▸ hrfragment.trans href
    have hle := length_render_le v
    refine .inr ?_
    unfold lengthBound
    omega

end StylePrune.Url
