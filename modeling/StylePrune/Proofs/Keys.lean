import StylePrune.Proofs.Ledger.Merge
import StylePrune.Proofs.Relocation
import StylePrune.Proofs.Url.Parts
import StylePrune.Sampling.Reference

/-!
Keys that are read as references again. What a page reports names its sheets by keys, and the ledger takes these for
references: a key stays what it is exactly if a reader of locators finds a path in it and nothing else.
-/

set_option autoImplicit false

namespace StylePrune

namespace Url

/-- A text that is all path to a reader of locators: nothing is skipped, and nothing in it is a scheme, a query, a
fragment or params. -/
structure IsAllPath (s : Text) : Prop where
  head : ∀ c ∈ s.head?, 0x20 < c.toNat
  breaks : ∀ c ∈ s, isBreak c = false
  scheme : cutScheme? s = none
  marks : ∀ c ∈ s, isMark c = false
  /-- No semicolon in the last segment. -/
  params : CodePoint.char ';' ∉ s.reverse.takeWhile (· ≠ .char '/')

variable {s t : Text} {u : Url}

theorem fst_cutOptional_eq_self_iff {c : CodePoint} : (cutOptional c s).1 = s ↔ c ∉ s := by
  rw [cutOptional_eq, List.takeWhile_eq_self_iff]
  simp only [decide_eq_true_eq, ne_eq]
  exact ⟨fun h hc => h c hc rfl, fun h a ha hac => h (hac ▸ ha)⟩

theorem fst_cutParams_eq_self_iff : (cutParams s).1 = s ↔ CodePoint.char ';' ∉ s.reverse.takeWhile (· ≠ .char '/') := by
  unfold cutParams Text.cutAtLast?
  have hlast := Text.cutAt?_singleton (c := '/') s.reverse
  rw [List.reverse_singleton]
  cases hc : Text.cutAt? ['/'] s.reverse with
  | none =>
    rw [hc] at hlast
    have hall : s.reverse.takeWhile (· ≠ .char '/') = s.reverse :=
      List.takeWhile_eq_self_iff.2 fun a ha => by simpa using fun h : a = .char '/' => hlast (h ▸ ha)
    rw [hall, List.mem_reverse]
    exact fst_cutOptional_eq_self_iff
  | some p =>
    obtain ⟨name, before⟩ := p
    rw [hc] at hlast
    obtain ⟨hs, hname⟩ := hlast
    have hs' : s = before.reverse ++ .char '/' :: name.reverse := by simpa using congrArg List.reverse hs
    have hall : s.reverse.takeWhile (· ≠ .char '/') = name := by
      have hne : ∀ a ∈ name, decide (a ≠ .char '/') = true := fun a ha => by
        simpa using fun h : a = .char '/' => hname (h ▸ ha)
      rw [hs, List.takeWhile_append_of_pos hne]
      simp
    rw [hall, Option.map_some]
    conv_lhs => rhs; rw [hs']
    simp only [List.append_cancel_left_eq, List.cons.injEq, true_and]
    rw [fst_cutOptional_eq_self_iff, List.mem_reverse]

theorem cutParams_eq_self_iff : cutParams s = (s, []) ↔ CodePoint.char ';' ∉ s.reverse.takeWhile (· ≠ .char '/') := by
  rw [← fst_cutParams_eq_self_iff]
  refine ⟨congrArg Prod.fst, fun h => Prod.ext h ?_⟩
  obtain ⟨-, ⟨-, hnil⟩ | hs⟩ := cutParams_spec s
  · exact hnil
  · have := congrArg List.length hs
    rw [h] at this
    simp at this

theorem IsAllPath.parse_eq (h : IsAllPath s) (hs : s.head? ≠ some (.char '/')) : parse s = .ok ⟨[], [], s, [], [], []⟩ := by
  have hdrop : (s.dropWhile fun c => c.toNat ≤ 0x20) = s := by
    cases s with
    | nil => rfl
    | cons c s => exact List.dropWhile_cons_of_neg (by simpa using h.head c rfl)
  have hsan : sanitize s = s := by
    unfold sanitize
    rw [hdrop]
    refine List.filter_eq_self.2 fun c hc => ?_
    have := h.breaks c hc
    simpa [isBreak, and_assoc] using this
  refine parse_of_uncut hsan h.scheme ?_ h.marks (cutParams_eq_self_iff.2 h.params)
  cases s with
  | nil => rfl
  | cons c s =>
    have hc : CodePoint.char '/' ≠ c := fun hc => hs (by rw [← hc]; rfl)
    exact if_neg hc

theorem cutScheme?_eq_none (h : afterScheme s = s) : cutScheme? s = none := by
  cases hc : cutScheme? s with
  | none => rfl
  | some p =>
    exfalso
    obtain rfl : p.2 = s := by simpa [afterScheme, hc] using h
    unfold cutScheme? at hc
    split at hc
    · rename_i name rest hcut
      split at hc
      · obtain rfl := Option.some.inj hc
        have := congrArg List.length (Text.eq_append_of_cutAt? hcut)
        simp only [List.length_append, List.length_singleton] at this
        omega
      · cases hc
    · cases hc

/-- Where the path is as long as the text, nothing was cut from the text. -/
theorem isAllPath_of_length_le (h : parse s = .ok u) (hl : s.length ≤ u.path.length) : IsAllPath s := by
  obtain ⟨hscheme, -, -, -, hpath⟩ := parseUnder_eq_ok h
  obtain ⟨-, r, -, hcore⟩ := exists_core_of_parseUnder h
  obtain ⟨front, hfront, -⟩ := exists_scheme_append (sanitize s)
  obtain ⟨host, hhost, -⟩ := exists_host_append (afterScheme (sanitize s))
  have hdrop := List.dropWhile_sublist (l := s) fun c => decide (c.toNat ≤ 0x20)
  have hfilter : (sanitize s).Sublist (s.dropWhile fun c => c.toNat ≤ 0x20) := List.filter_sublist
  have hbody : (body (afterHost (afterScheme (sanitize s)))).Sublist (afterHost (afterScheme (sanitize s))) :=
    List.takeWhile_sublist _
  have h₁ := hdrop.length_le
  have h₂ := hfilter.length_le
  have h₃ := congrArg List.length hfront
  have h₄ := congrArg List.length hhost
  have h₅ := hbody.length_le
  have h₆ := congrArg List.length hcore
  simp only [core, List.length_append] at h₃ h₄ h₆
  -- each of these texts is cut from the one before, and the last is as long as the first
  have hdrop := hdrop.eq_of_length (by omega)
  have hsan : sanitize s = s := (hfilter.eq_of_length (by omega)).trans hdrop
  obtain rfl : front = [] := List.eq_nil_of_length_eq_zero (by omega)
  obtain rfl : host = [] := List.eq_nil_of_length_eq_zero (by omega)
  have hafter : afterScheme s = s := by rw [hsan] at hfront; exact hfront.symm
  have hrest : afterHost s = s := by rw [hsan, hafter] at hhost; exact hhost.symm
  have hbody := hbody.eq_of_length (by omega)
  rw [hsan, hafter, hrest] at hbody hpath
  rw [hsan, cutScheme?_eq_none hafter] at hscheme
  rw [if_pos (hscheme ▸ List.mem_cons_self), hbody] at hpath
  have hparams : (cutParams s).1 = s := by
    obtain ⟨-, ⟨hs, -⟩ | hs⟩ := cutParams_spec s
    · exact hs.symm
    · have hpath : u.path = (cutParams s).1 := congrArg Prod.fst hpath
      have hlen := congrArg List.length hs
      rw [← hpath, List.length_append, List.length_cons] at hlen
      omega
  refine ⟨fun c hc => ?_, fun c hc => isBreak_of_mem_sanitize (hsan.symm ▸ hc), cutScheme?_eq_none hafter, fun c hc => ?_,
    fst_cutParams_eq_self_iff.1 hparams⟩
  · have := List.head?_dropWhile_not (fun c => decide (c.toNat ≤ 0x20)) s
    rw [hdrop, hc] at this
    simpa using this
  · simpa using List.takeWhile_eq_self_iff.1 hbody c hc

end Url

namespace SourceKey

variable {s k : Text}

/-- A key that stays what it is when it is read again. -/
def IsSettled (k : Text) : Prop := k = inline ∨ (∃ u, Url.parse k = .ok u ∧ u.path = []) ∨ Url.IsAllPath k

theorem ofReference_of_ne (h : s ≠ inline) :
    ofReference s = (Url.parse s).map fun u => (if u.path = [] then s else u.path).dropWhile (· = .char '/') := if_neg h

/-- No key starts with a slash. -/
theorem head?_of_ofReference (h : ofReference s = .ok k) : k.head? ≠ some (.char '/') := by
  intro hk
  have hr := isRelative_of_ofReference h
  obtain ⟨t, rfl⟩ := List.head?_eq_some_iff.1 hk
  cases hr

/-- A key is its own key exactly if it is settled. -/
theorem ofReference_eq_self_iff (hk : k.head? ≠ some (.char '/')) : ofReference k = .ok k ↔ IsSettled k := by
  have hself : k.dropWhile (· = .char '/') = k := by
    cases k with
    | nil => rfl
    | cons c k => exact List.dropWhile_cons_of_neg (by simpa using fun hc : c = .char '/' => hk (by rw [hc]; rfl))
  by_cases hi : k = inline
  · exact iff_of_true (if_pos hi) (.inl hi)
  rw [ofReference_of_ne hi]
  constructor
  · intro h
    cases hu : Url.parse k with
    | error e =>
      rw [hu] at h
      cases h
    | ok u =>
      rw [hu] at h
      have h : (if u.path = [] then k else u.path).dropWhile (· = .char '/') = k := Except.ok.inj h
      by_cases hp : u.path = []
      · exact .inr (.inl ⟨u, hu, hp⟩)
      · rw [if_neg hp] at h
        refine .inr (.inr (Url.isAllPath_of_length_le hu ?_))
        have := (List.dropWhile_sublist (l := u.path) fun c => decide (c = .char '/')).length_le
        rwa [h] at this
  · rintro (h | ⟨u, hu, hp⟩ | h)
    · exact absurd h hi
    · have : (if u.path = [] then k else u.path).dropWhile (· = .char '/') = k := by rw [if_pos hp, hself]
      rw [hu]
      exact congrArg Except.ok this
    · have : (if k = [] then k else k).dropWhile (· = .char '/') = k := by rw [ite_self, hself]
      rw [h.parse_eq hk]
      exact congrArg Except.ok this

end SourceKey

namespace Sampling

open Ledger (Merge)

variable {pageUrl base : Option Text} {ref k : Text}

/-- A page reports a sheet under the key of its locator, and a merge reads that key as a reference. It opens and changes
the entry of the same key exactly if the key is settled. -/
theorem key_merged_iff (h : (resolve pageUrl ref base).bind SourceKey.ofReference = .ok k) :
    (SourceKey.ofReference k = .ok k ↔ SourceKey.IsSettled k) ∧
      ∀ (s : Site) (locked : Text → Bool) (d : Disk) (m m' : Merge) (uses : List Css.Use),
        m.step s locked d k uses = .ok m' →
          ∃ file found, SourceKey.ofReference k = .ok file ∧ Ledger.opening s locked d m.ledger file = .ok found ∧
            m'.ledger = m.ledger.insert file (found.1.witness (Ledger.reported uses)) ∧
            (file = k ↔ SourceKey.IsSettled k) := by
  have hk : k.head? ≠ some (.char '/') := by
    cases hr : resolve pageUrl ref base with
    | error e =>
      rw [hr] at h
      cases h
    | ok url =>
      rw [hr] at h
      exact SourceKey.head?_of_ofReference h
  have hiff := SourceKey.ofReference_eq_self_iff hk
  refine ⟨hiff, fun s locked d m m' uses hm => ?_⟩
  obtain ⟨file, found, hf, ho, hl⟩ := Merge.step_eq_ok hm
  refine ⟨file, found, hf, ho, hl, Iff.trans ?_ hiff⟩
  rw [hf]
  exact ⟨congrArg Except.ok, Except.ok.inj⟩

/-- A ledger with one file of which nothing is known. -/
def bareLedger (file : Text) : Ledger := Table.empty.insert file Table.empty

theorem exists_step_bareLedger {file : Text} (h : SourceKey.ofReference k = .ok file) (s : Site) (d : Disk) :
    ∃ m, (Merge.start (bareLedger file)).step s (fun _ => false) d k [] = .ok m ∧ m.files = [file] := by
  have hl : (bareLedger file).get? file = some Table.empty := by rw [bareLedger, Table.get?_insert, if_pos rfl]
  simp [Merge.step, h, Merge.start, hl]

theorem bind_resolve_linked :
    (resolve (some ("/index.html" : Text)) "css/a.css?v=3" none).bind SourceKey.ofReference = .ok ("css/a.css" : Text) :=
  rfl

theorem settled_linked : SourceKey.IsSettled "css/a.css" ∧ ∃ m found,
    (Merge.start (bareLedger "css/a.css")).step ⟨"/", 0⟩ (fun _ => false) Disk.empty "css/a.css" [] = .ok m ∧
      m.ledger = (bareLedger "css/a.css").insert "css/a.css" (Statuses.witness (Ledger.reported []) found) := by
  obtain ⟨hkey, hmerge⟩ := key_merged_iff bind_resolve_linked
  have hs := hkey.1 rfl
  obtain ⟨m, hm, -⟩ := exists_step_bareLedger (k := "css/a.css") rfl ⟨"/", 0⟩ Disk.empty
  obtain ⟨file, found, -, -, hl, hfile⟩ := hmerge _ _ _ _ _ _ hm
  obtain rfl := hfile.2 hs
  exact ⟨hs, m, found.1, hm, hl⟩

/-- The second time a scheme is read off the name of the file, and the report goes to another one. -/
theorem unsettled_schemed :
    resolve none "/http:a.css" none = .ok ("/http:a.css" : Text) ∧
      SourceKey.ofReference "/http:a.css" = .ok ("http:a.css" : Text) ∧
      SourceKey.ofReference "http:a.css" ≠ .ok ("http:a.css" : Text) ∧
      ∃ m, (Merge.start (bareLedger "a.css")).step ⟨"/", 0⟩ (fun _ => false) Disk.empty "http:a.css" [] = .ok m ∧
        m.files = [("a.css" : Text)] := by
  have hkey : SourceKey.ofReference "http:a.css" = .ok ("a.css" : Text) := rfl
  refine ⟨rfl, rfl, fun h => ?_, exists_step_bareLedger hkey _ _⟩
  exact absurd (Except.ok.inj (hkey.symm.trans h)) (by decide)

end Sampling

end StylePrune
