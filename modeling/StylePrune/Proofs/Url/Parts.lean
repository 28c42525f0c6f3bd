import Mathlib.Data.List.Infix
import Mathlib.Data.List.TakeWhile
import StylePrune.Url
import StylePrune.Proofs.Path

/-!
What comes back when a locator is written out and read again: its query, and of its path at most what it was written
with. Whatever stands before the query and the fragment is cut from the front only.
-/

set_option autoImplicit false

namespace StylePrune

namespace Url

/-- Characters that do not count anywhere in a locator. -/
def isBreak (c : CodePoint) : Bool := c == '\t' || c == '\n' || c == '\r'

def isMark (c : CodePoint) : Bool := c == '?' || c == '#'

/-- What stands before the query and the fragment. -/
def body (s : Text) : Text := s.takeWhile fun c => !isMark c

/-- What stands between the first question mark and the number sign. -/
def queryIn (s : Text) : Text := ((s.takeWhile (· ≠ .char '#')).dropWhile (· ≠ .char '?')).tail

/-- The path with the params that follow it. -/
def core (u : Url) : Text := u.path ++ if u.params = [] then [] else .char ';' :: u.params

def inHost (c : CodePoint) : Bool := c != '/' && c != '?' && c != '#'

/-- What is left of a text when its scheme is cut off. -/
def afterScheme (s : Text) : Text := ((cutScheme? s).map Prod.snd).getD s

def hostOf (s : Text) : Text :=
  match Text.after? "//" s with
  | some r => r.takeWhile inHost
  | none => []

/-- What is left of a text when its host is cut off. -/
def afterHost (s : Text) : Text :=
  match Text.after? "//" s with
  | some r => r.dropWhile inHost
  | none => s

/-- Rids a text of the slash at its start. -/
def unslash (s : Text) : Text := if s.head? = some (.char '/') then s.tail else s

variable {s t x y : Text} {c : CodePoint} {u v : Url} {scheme : Text}

theorem cutOptional_eq (c : CodePoint) (s : Text) :
    cutOptional c s = (s.takeWhile (· ≠ c), (s.dropWhile (· ≠ c)).tail) := by
  unfold cutOptional
  have hcut := Text.cutAt?_singleton (c := c) s
  cases hs : Text.cutAt? [c] s with
  | none =>
    rw [hs] at hcut
    have hne : ∀ a ∈ s, decide (a ≠ c) = true := fun a ha => by simpa using fun h : a = c => hcut (h ▸ ha)
    rw [Option.getD_none, List.takeWhile_eq_self_iff.2 hne, List.dropWhile_eq_nil_iff.2 hne, List.tail_nil]
  | some p =>
    rw [hs] at hcut
    obtain ⟨hp, hnot⟩ := hcut
    have hne : ∀ a ∈ p.1, decide (a ≠ c) = true := fun a ha => by simpa using fun h : a = c => hnot (h ▸ ha)
    rw [Option.getD_some, hp, List.takeWhile_append_of_pos hne, List.dropWhile_append_of_pos hne]
    simp

theorem cutOptional_spec (c : CodePoint) (s : Text) :
    s = (cutOptional c s).1 ∧ (cutOptional c s).2 = [] ∨ s = (cutOptional c s).1 ++ c :: (cutOptional c s).2 := by
  unfold cutOptional
  cases hs : Text.cutAt? [c] s with
  | none => exact .inl ⟨rfl, rfl⟩
  | some p => exact .inr (by simpa using Text.eq_append_of_cutAt? hs)

/-- Params have no slash. -/
theorem cutParams_spec (s : Text) : CodePoint.char '/' ∉ (cutParams s).2 ∧
    (s = (cutParams s).1 ∧ (cutParams s).2 = [] ∨ s = (cutParams s).1 ++ .char ';' :: (cutParams s).2) := by
  have hparams {s : Text} (hs : CodePoint.char '/' ∉ s) : CodePoint.char '/' ∉ (cutOptional ';' s).2 := by
    intro hm
    rcases cutOptional_spec ';' s with ⟨-, hnil⟩ | hcut
    · rw [hnil] at hm
      exact List.not_mem_nil hm
    · exact hs (hcut ▸ List.mem_append_right _ (List.mem_cons_of_mem _ hm))
  unfold cutParams Text.cutAtLast?
  have hlast := Text.cutAt?_singleton (c := '/') s.reverse
  rw [List.reverse_singleton]
  cases hc : Text.cutAt? ['/'] s.reverse with
  | none =>
    rw [hc] at hlast
    exact ⟨hparams (by simpa using hlast), cutOptional_spec ';' s⟩
  | some p =>
    obtain ⟨name, before⟩ := p
    rw [hc] at hlast
    obtain ⟨hs, hname⟩ := hlast
    have hs' : s = before.reverse ++ .char '/' :: name.reverse := by simpa using congrArg List.reverse hs
    refine ⟨hparams (by simpa using hname), ?_⟩
    rw [Option.map_some]
    dsimp only
    rcases cutOptional_spec ';' name.reverse with ⟨hcut, hnil⟩ | hcut
    · exact .inl ⟨hs'.trans (by rw [← hcut]), hnil⟩
    · refine .inr (hs'.trans ?_)
      rw [List.append_assoc, List.cons_append, ← hcut]

/-- What a path and its params are cut from is the two of them, but for a semicolon without params. -/
theorem exists_core_append {p : Text × Text}
    (h : CodePoint.char '/' ∉ p.2 ∧ (s = p.1 ∧ p.2 = [] ∨ s = p.1 ++ .char ';' :: p.2)) (hp : u.path = p.1)
    (hq : u.params = p.2) : ∃ r, CodePoint.char '/' ∉ r ∧ s = u.core ++ r := by
  obtain ⟨-, ⟨hs, hnil⟩ | hs⟩ := h
  · exact ⟨[], List.not_mem_nil, by simp [core, hp, hq, hnil, ← hs]⟩
  · by_cases hnil : p.2 = []
    · exact ⟨[.char ';'], by simp, by simp [core, hp, hq, hnil, hs]⟩
    · exact ⟨[], List.not_mem_nil, by simp [core, hp, hq, hnil, hs]⟩

theorem queryIn_eq (s : Text) : (cutOptional '?' (cutOptional '#' s).1).2 = queryIn s := by
  rw [cutOptional_eq, cutOptional_eq, queryIn]

theorem body_eq (s : Text) : (cutOptional '?' (cutOptional '#' s).1).1 = body s := by
  rw [cutOptional_eq, cutOptional_eq, body]
  refine (List.takeWhile_takeWhile _ _ s).trans (congrArg (List.takeWhile · s) (funext fun c => ?_))
  by_cases h : c = '?' <;> by_cases h' : c = '#' <;> simp [isMark, h, h']

/-- The parts of a text, cut off one after another. -/
theorem parseUnder_eq_ok (h : parseUnder scheme s = .ok u) :
    u.scheme = ((cutScheme? (sanitize s)).map Prod.fst).getD scheme ∧
    u.netloc = hostOf (afterScheme (sanitize s)) ∧
    u.query = queryIn (afterHost (afterScheme (sanitize s))) ∧
    u.fragment = ((afterHost (afterScheme (sanitize s))).dropWhile (· ≠ .char '#')).tail ∧
    (u.path, u.params) = if u.scheme ∈ paramsSchemes then cutParams (body (afterHost (afterScheme (sanitize s))))
      else (body (afterHost (afterScheme (sanitize s))), []) := by
  have hcut : (cutScheme? (sanitize s)).getD (scheme, sanitize s) =
      (((cutScheme? (sanitize s)).map Prod.fst).getD scheme, afterScheme (sanitize s)) := by
    unfold afterScheme
    cases cutScheme? (sanitize s) <;> rfl
  unfold parseUnder at h
  unfold hostOf afterHost
  simp only [hcut] at h
  cases hh : Text.after? "//" (afterScheme (sanitize s)) with
  | none | some =>
    simp only [hh, queryIn_eq, body_eq] at h
    split at h
    · cases h
    · obtain rfl := Except.ok.inj h
      exact ⟨rfl, rfl, rfl, congrArg Prod.snd (cutOptional_eq _ _), rfl⟩

theorem body_append (h : ∀ c ∈ x, isMark c = false) : body (x ++ y) = x ++ body y :=
  List.takeWhile_append_of_pos fun c hc => by simp [h c hc]

theorem queryIn_append (h : ∀ c ∈ x, isMark c = false) : queryIn (x ++ y) = queryIn y := by
  have hne (c : CodePoint) (hc : c ∈ x) : c ≠ '?' ∧ c ≠ '#' := by
    have := h c hc
    rw [isMark, Bool.or_eq_false_iff] at this
    exact ⟨ne_of_beq_false this.1, ne_of_beq_false this.2⟩
  rw [queryIn, queryIn, List.takeWhile_append_of_pos fun c hc => by simp [(hne c hc).2],
    List.dropWhile_append_of_pos fun c hc => by simp [(hne c hc).1]]

theorem isMark_of_isSchemeChar (h : isSchemeChar c = true) : isMark c = false := by
  by_contra hm
  rw [Bool.not_eq_false, isMark, Bool.or_eq_true, beq_iff_eq, beq_iff_eq] at hm
  rcases hm with rfl | rfl <;> exact absurd h (by decide)

theorem isMark_of_inHost (h : inHost c = true) : isMark c = false := by
  by_contra hm
  rw [Bool.not_eq_false, isMark, Bool.or_eq_true, beq_iff_eq, beq_iff_eq] at hm
  rcases hm with rfl | rfl <;> exact absurd h (by decide)

theorem exists_scheme_append (s : Text) :
    ∃ front, s = front ++ afterScheme s ∧ ∀ c ∈ front, isMark c = false := by
  unfold afterScheme cutScheme?
  cases hc : Text.cutAt? [':'] s with
  | none => exact ⟨[], rfl, List.forall_mem_nil _⟩
  | some p =>
    obtain ⟨name, rest⟩ := p
    dsimp only
    split
    · rename_i hname
      rw [Bool.and_eq_true, List.all_eq_true] at hname
      refine ⟨name ++ [.char ':'], Text.eq_append_of_cutAt? hc, fun c hc => ?_⟩
      rcases List.mem_append.1 hc with hc | hc
      · exact isMark_of_isSchemeChar (hname.2 c hc)
      · rw [List.mem_singleton.1 hc]
        rfl
    · exact ⟨[], rfl, List.forall_mem_nil _⟩

theorem exists_host_append (s : Text) : ∃ front, s = front ++ afterHost s ∧ ∀ c ∈ front, isMark c = false := by
  unfold afterHost
  cases ha : Text.after? "//" s with
  | none => exact ⟨[], rfl, List.forall_mem_nil _⟩
  | some r =>
    refine ⟨"//" ++ r.takeWhile inHost, ?_, fun c hc => ?_⟩
    · rw [List.append_assoc, List.takeWhile_append_dropWhile]
      exact Text.eq_append_of_after? ha
    · have hslashes : ∀ c ∈ ("//" : Text), isMark c = false := by decide
      rcases List.mem_append.1 hc with hc | hc
      · exact hslashes c hc
      · exact isMark_of_inHost (List.mem_takeWhile_imp hc)

/-- What stands before the query and the fragment is cut from the front only. -/
theorem afterScheme_spec (s : Text) : body (afterScheme s) <:+ body s ∧ queryIn (afterScheme s) = queryIn s := by
  obtain ⟨front, hs, hf⟩ := exists_scheme_append s
  have hb := body_append hf (y := afterScheme s)
  have hq := queryIn_append hf (y := afterScheme s)
  rw [← hs] at hb hq
  exact ⟨⟨front, hb.symm⟩, hq.symm⟩

theorem afterHost_spec (s : Text) : body (afterHost s) <:+ body s ∧ queryIn (afterHost s) = queryIn s := by
  obtain ⟨front, hs, hf⟩ := exists_host_append s
  have hb := body_append hf (y := afterHost s)
  have hq := queryIn_append hf (y := afterHost s)
  rw [← hs] at hb hq
  exact ⟨⟨front, hb.symm⟩, hq.symm⟩

/-! ## Parts without marks -/

/-- Parts that stay apart when they are written one after another. -/
structure Clean (u : Url) : Prop where
  netloc : ∀ c ∈ u.netloc, inHost c = true ∧ isBreak c = false
  core : ∀ c ∈ u.core, isMark c = false ∧ isBreak c = false
  query : ∀ c ∈ u.query, c ≠ '#' ∧ isBreak c = false

theorem isBreak_of_mem_sanitize (h : c ∈ sanitize s) : isBreak c = false := by
  have := (List.mem_filter.1 h).2
  simp only [Bool.and_eq_true, bne_iff_ne] at this
  simp [isBreak, this]

theorem mem_of_mem_queryIn (h : c ∈ queryIn s) : c ∈ s ∧ c ≠ '#' := by
  have hmem := List.mem_of_mem_tail h
  have htake := (List.dropWhile_sublist _).subset hmem
  exact ⟨(List.takeWhile_sublist _).subset htake, by simpa using List.mem_takeWhile_imp htake⟩

theorem mem_of_mem_rest (h : c ∈ afterHost (afterScheme s)) : c ∈ s := by
  obtain ⟨front, hs, -⟩ := exists_scheme_append s
  obtain ⟨front', hs', -⟩ := exists_host_append (afterScheme s)
  rw [hs, hs']
  exact List.mem_append_right _ (List.mem_append_right _ h)

theorem mem_of_mem_hostOf (h : c ∈ hostOf (afterScheme s)) : c ∈ s ∧ inHost c = true := by
  obtain ⟨front, hs, -⟩ := exists_scheme_append s
  unfold hostOf at h
  split at h
  · rename_i r hr
    refine ⟨?_, List.mem_takeWhile_imp h⟩
    rw [hs, Text.eq_append_of_after? hr]
    exact List.mem_append_right _ (List.mem_append_right _ ((List.takeWhile_sublist _).subset h))
  · exact absurd h List.not_mem_nil

/-- Of what stands before the query and the fragment a locator keeps all but a semicolon at the end. -/
theorem exists_core_of_parseUnder (h : parseUnder scheme s = .ok u) : CodePoint.char '/' ∉ u.params ∧
    ∃ r, CodePoint.char '/' ∉ r ∧ body (afterHost (afterScheme (sanitize s))) = u.core ++ r := by
  obtain ⟨-, -, -, -, hpath⟩ := parseUnder_eq_ok h
  split at hpath
  · obtain ⟨hp, hq⟩ := Prod.mk.inj hpath
    have hspec := cutParams_spec (body (afterHost (afterScheme (sanitize s))))
    exact ⟨hq ▸ hspec.1, exists_core_append hspec hp hq⟩
  · obtain ⟨hp, hq⟩ := Prod.mk.inj hpath
    exact ⟨by simp [hq], [], List.not_mem_nil, by simp [core, hp, hq]⟩

theorem clean_of_parseUnder (h : parseUnder scheme s = .ok u) : u.Clean := by
  obtain ⟨-, hnetloc, hquery, -, -⟩ := parseUnder_eq_ok h
  obtain ⟨-, r, -, hcore⟩ := exists_core_of_parseUnder h
  refine ⟨fun c hc => ?_, fun c hc => ?_, fun c hc => ?_⟩
  · rw [hnetloc] at hc
    exact ⟨(mem_of_mem_hostOf hc).2, isBreak_of_mem_sanitize (mem_of_mem_hostOf hc).1⟩
  · have hbody : c ∈ body (afterHost (afterScheme (sanitize s))) := hcore ▸ List.mem_append_left _ hc
    exact ⟨by simpa using List.mem_takeWhile_imp hbody,
      isBreak_of_mem_sanitize (mem_of_mem_rest ((List.takeWhile_sublist _).subset hbody))⟩
  · rw [hquery] at hc
    exact ⟨(mem_of_mem_queryIn hc).2, isBreak_of_mem_sanitize (mem_of_mem_rest (mem_of_mem_queryIn hc).1)⟩

/-- A text that goes on, if at all, with a mark. -/
theorem sanitize_append (hx : ∀ c ∈ x, isBreak c = false) (hy : ∀ c ∈ y.head?, isMark c = true) :
    sanitize (x ++ y) = (x.dropWhile fun c => c.toNat ≤ 0x20) ++ y.filter fun c => !isBreak c := by
  have hfilter (t : Text) : (t.filter fun (c : CodePoint) => c != '\t' && c != '\n' && c != '\r') =
      t.filter fun c => !isBreak c := by
    refine List.filter_congr fun c _ => ?_
    simp [isBreak, bne, Bool.and_assoc]
  have hdrop : (y.dropWhile fun c => decide (c.toNat ≤ 0x20)) = y := by
    cases y with
    | nil => rfl
    | cons c y =>
      have hc := hy c rfl
      rw [isMark, Bool.or_eq_true, beq_iff_eq, beq_iff_eq] at hc
      rcases hc with rfl | rfl <;> rfl
  rw [sanitize, hfilter, List.dropWhile_append]
  split
  · rename_i hnil
    rw [List.isEmpty_iff.1 hnil, hdrop, List.nil_append]
  · rw [List.filter_append, List.filter_eq_self.2]
    exact fun c hc => by simp [hx c ((List.dropWhile_sublist _).subset hc)]

/-! ## What is written -/

/-- Is the host written, be it empty? -/
def ShowsHost (u : Url) : Prop :=
  u.netloc ≠ [] ∨ (u.scheme ≠ [] ∧ u.scheme ∈ netlocSchemes ∧ !Text.startsWith u.core "//")

instance (u : Url) : Decidable u.ShowsHost := by
  unfold ShowsHost
  infer_instance

/-- What is written of the path behind a host. -/
def rooted (u : Url) : Text :=
  if u.core ≠ [] ∧ u.core.head? ≠ some (.char '/') then .char '/' :: u.core else u.core

/-- What is written before the query and the fragment, the scheme apart. -/
def location (u : Url) : Text := if u.ShowsHost then "//" ++ u.netloc ++ u.rooted else u.core

def marks (u : Url) : Text :=
  (if u.query = [] then [] else .char '?' :: u.query) ++ (if u.fragment = [] then [] else .char '#' :: u.fragment)

/-- The marks as they are read again. -/
def marksRead (u : Url) : Text := u.marks.filter fun c => !isBreak c

theorem render_eq (u : Url) : u.render = (if u.scheme = [] then [] else u.scheme ++ [.char ':']) ++
    (u.location ++ u.marks) := by
  simp only [render, location, ShowsHost, rooted, core, marks, List.append_assoc]
  rfl

theorem head?_marks (u : Url) : ∀ c ∈ u.marks.head?, isMark c = true := by
  unfold marks
  split
  · split
    · simp
    · simp [isMark]
  · simp [isMark]

theorem queryIn_marks (h : u.Clean) : queryIn u.marksRead = u.query := by
  have hq : u.query.filter (fun c => !isBreak c) = u.query :=
    List.filter_eq_self.2 fun c hc => by simp [(h.query c hc).2]
  have hne : ∀ c ∈ u.query, decide (c ≠ CodePoint.char '#') = true := fun c hc => by simp [(h.query c hc).1]
  have hbreak : isBreak (.char '?') = false ∧ isBreak (.char '#') = false := by decide
  unfold marksRead marks queryIn
  rw [List.filter_append]
  by_cases hnil : u.query = [] <;> by_cases hf : u.fragment = []
  · simp [hnil, hf]
  · simp [hnil, hf, hbreak]
  · have htake := List.takeWhile_eq_self_iff.2 hne
    simpa [hnil, hf, hbreak, hq] using htake
  · have htake (t : Text) : (u.query ++ .char '#' :: t).takeWhile (· ≠ .char '#') = u.query := by
      rw [List.takeWhile_append_of_pos hne, List.takeWhile_cons_of_neg (by simp), List.append_nil]
    simpa [hnil, hf, hbreak, hq] using htake _

theorem unslash_rooted (u : Url) : unslash u.rooted = unslash u.core := by
  unfold rooted
  split
  · rename_i h
    simp [unslash, h.2]
  · rfl

theorem unslash_append (h : CodePoint.char '/' ∉ y) : unslash (x ++ y) = unslash x ++ y := by
  unfold unslash
  cases x with
  | nil =>
    have hne : y.head? ≠ some (.char '/') := fun he => h (List.mem_of_head? he)
    simp [hne]
  | cons c x => by_cases hc : c = .char '/' <;> simp [hc]

theorem unslash_suffix_self (s : Text) : unslash s <:+ s := by
  unfold unslash
  split
  · exact List.tail_suffix s
  · exact List.suffix_refl s

theorem unslash_suffix (h : x <:+ y) : unslash x <:+ unslash y := by
  have htail (s : Text) : s.tail <:+ unslash s := by
    unfold unslash
    split
    · exact List.suffix_refl _
    · exact List.tail_suffix s
  obtain ⟨front, rfl⟩ := h
  cases front with
  | nil => exact List.suffix_refl _
  | cons c front =>
    refine (unslash_suffix_self x).trans (List.IsSuffix.trans ?_ (htail _))
    exact List.suffix_append front x

theorem cutAt?_of_not_mem (h : c ∉ x) : Text.cutAt? [c] (x ++ c :: y) = some (x, y) := by
  induction x with
  | nil => simp [Text.cutAt?, Text.after?]
  | cons a x ih =>
    obtain ⟨ha, hx⟩ := not_or.1 (mt List.mem_cons.2 h)
    simp [Text.cutAt?, Text.after?, ha, ih hx]

theorem afterScheme_of_mem (hs : scheme ∈ relativeSchemes) (hn : scheme ≠ []) :
    afterScheme (scheme ++ .char ':' :: y) = y := by
  have hall : ∀ s ∈ relativeSchemes, s ≠ [] → CodePoint.char ':' ∉ s ∧
      ((s.head?.any CodePoint.isAlpha) && s.all isSchemeChar) = true := by decide
  obtain ⟨hcolon, hchars⟩ := hall scheme hs hn
  unfold afterScheme cutScheme?
  rw [cutAt?_of_not_mem hcolon]
  simp only [hchars, if_true]
  rfl

theorem cutScheme?_of_slash (y : Text) : cutScheme? (.char '/' :: y) = none := by
  unfold cutScheme?
  cases hc : Text.cutAt? [':'] (.char '/' :: y) with
  | none => rfl
  | some p =>
    obtain ⟨name, rest⟩ := p
    have happ := Text.eq_append_of_cutAt? hc
    cases name with
    | nil => simp at happ
    | cons a name =>
      obtain ⟨rfl, -⟩ := List.cons.inj happ
      rfl

theorem afterScheme_of_slash (y : Text) : afterScheme (.char '/' :: y) = .char '/' :: y := by
  rw [afterScheme, cutScheme?_of_slash]
  rfl

theorem afterHost_append (hx : ∀ c ∈ x, inHost c = true) (hy : ∀ c ∈ y.head?, inHost c = false) :
    afterHost ("//" ++ (x ++ y)) = y := by
  unfold afterHost
  rw [Text.after?_append]
  simp only
  rw [List.dropWhile_append_of_pos hx]
  cases y with
  | nil => rfl
  | cons c y => rw [List.dropWhile_cons_of_neg (by simp [hy c rfl])]

theorem inHost_of_isMark (h : isMark c = true) : inHost c = false := by
  by_contra hh
  rw [isMark_of_inHost (by simpa using hh)] at h
  cases h

theorem body_eq_nil (h : ∀ c ∈ x.head?, isMark c = true) : body x = [] := by
  cases x with
  | nil => rfl
  | cons c x => rw [body, List.takeWhile_cons_of_neg (by simp [h c rfl])]

theorem head?_marksRead (u : Url) : ∀ c ∈ u.marksRead.head?, isMark c = true := by
  have hbreak : isBreak (.char '?') = false ∧ isBreak (.char '#') = false := by decide
  unfold marksRead marks
  split
  · split
    · simp
    · simp [isMark, hbreak]
  · simp [isMark, hbreak]

theorem head?_rooted_append (u : Url) : ∀ c ∈ (u.rooted ++ u.marksRead).head?, inHost c = false := by
  intro c hc
  by_cases hnil : u.core = []
  · rw [rooted, if_neg (by simp [hnil]), hnil, List.nil_append] at hc
    exact inHost_of_isMark (u.head?_marksRead c hc)
  · have hslash : u.rooted.head? = some (.char '/') := by
      unfold rooted
      split
      · rfl
      · rename_i h
        exact not_not.1 fun hne => h ⟨hnil, hne⟩
    rw [List.head?_append, hslash] at hc
    obtain rfl := Option.mem_some_iff.1 hc
    rfl

theorem forall_of_mem_relativeSchemes (hs : scheme ∈ relativeSchemes) :
    ∀ c ∈ scheme, isMark c = false ∧ isBreak c = false := by
  have hall : ∀ s ∈ relativeSchemes, ∀ c ∈ s, isMark c = false ∧ isBreak c = false := by decide
  exact hall _ hs

namespace Clean

theorem rooted (h : u.Clean) : ∀ c ∈ u.rooted, isMark c = false ∧ isBreak c = false := by
  unfold Url.rooted
  split
  · exact List.forall_mem_cons.2 ⟨by decide, h.core⟩
  · exact h.core

theorem location (h : u.Clean) : ∀ c ∈ u.location, isMark c = false ∧ isBreak c = false := by
  have hslashes : ∀ c ∈ ("//" : Text), isMark c = false ∧ isBreak c = false := by decide
  unfold Url.location
  split
  · refine List.forall_mem_append.2 ⟨List.forall_mem_append.2 ⟨hslashes, fun c hc => ?_⟩, h.rooted⟩
    exact ⟨isMark_of_inHost (h.netloc c hc).1, (h.netloc c hc).2⟩
  · exact h.core

theorem sanitize_render_of_nil (h : u.Clean) (hnil : u.scheme = []) :
    sanitize u.render = (u.location.dropWhile fun c => c.toNat ≤ 0x20) ++ u.marksRead := by
  rw [render_eq, if_pos hnil, List.nil_append]
  exact sanitize_append (fun c hc => (h.location c hc).2) u.head?_marks

theorem sanitize_render_of_ne_nil (h : u.Clean) (hs : u.scheme ∈ relativeSchemes) (hne : u.scheme ≠ []) :
    sanitize u.render = u.scheme ++ .char ':' :: (u.location ++ u.marksRead) := by
  have hall : ∀ s ∈ relativeSchemes, ∀ c ∈ s.head?, ¬ c.toNat ≤ 0x20 := by decide
  have hcolon : isBreak (.char ':') = false := by decide
  have hclean : ∀ c ∈ u.scheme ++ .char ':' :: u.location, isBreak c = false :=
    List.forall_mem_append.2 ⟨fun c hc => (forall_of_mem_relativeSchemes hs c hc).2,
      List.forall_mem_cons.2 ⟨hcolon, fun c hc => (h.location c hc).2⟩⟩
  have hsan := sanitize_append hclean u.head?_marks
  obtain ⟨c, name, hname⟩ := List.exists_cons_of_ne_nil hne
  have hc : ¬ c.toNat ≤ 0x20 := hall _ hs c (by simp [hname])
  have hdrop : ((u.scheme ++ .char ':' :: u.location).dropWhile fun c => decide (c.toNat ≤ 0x20)) =
      u.scheme ++ .char ':' :: u.location := by
    rw [hname, List.cons_append, List.dropWhile_cons_of_neg (by simp [hc])]
  rw [render_eq, if_neg hne]
  simpa [hdrop, marksRead] using hsan

theorem queryIn_sanitize (h : u.Clean) (hs : u.scheme ∈ relativeSchemes) : queryIn (sanitize u.render) = u.query := by
  have hloc (c : CodePoint) (hc : c ∈ u.location) : isMark c = false := (h.location c hc).1
  by_cases hnil : u.scheme = []
  · rw [h.sanitize_render_of_nil hnil, queryIn_append fun c hc => hloc c ((List.dropWhile_sublist _).subset hc)]
    exact queryIn_marks h
  · have hcolon : isMark (.char ':') = false := by decide
    have hfront : ∀ c ∈ u.scheme ++ .char ':' :: u.location, isMark c = false :=
      List.forall_mem_append.2 ⟨fun c hc => (forall_of_mem_relativeSchemes hs c hc).1,
        List.forall_mem_cons.2 ⟨hcolon, hloc⟩⟩
    rw [h.sanitize_render_of_ne_nil hs hnil, ← List.cons_append, ← List.append_assoc, queryIn_append hfront]
    exact queryIn_marks h

/-- A host that is written stands behind the scheme again. -/
theorem afterScheme_of_showsHost (h : u.Clean) (hs : u.scheme ∈ relativeSchemes) (hhost : u.ShowsHost) :
    afterScheme (sanitize u.render) = "//" ++ (u.netloc ++ (u.rooted ++ u.marksRead)) := by
  have hloc : u.location = "//" ++ u.netloc ++ u.rooted := if_pos hhost
  by_cases hnil : u.scheme = []
  · have hdrop : (("//" ++ u.netloc ++ u.rooted : Text).dropWhile fun c => decide (c.toNat ≤ 0x20)) =
        "//" ++ u.netloc ++ u.rooted := rfl
    rw [h.sanitize_render_of_nil hnil, hloc, hdrop, List.append_assoc, List.append_assoc]
    exact afterScheme_of_slash _
  · rw [h.sanitize_render_of_ne_nil hs hnil, afterScheme_of_mem hs hnil, hloc, List.append_assoc, List.append_assoc]

/-- Without a host the path stands there, but for what does not count at its start. -/
theorem body_afterScheme_suffix (h : u.Clean) (hs : u.scheme ∈ relativeSchemes) (hhost : ¬ u.ShowsHost) :
    body (afterScheme (sanitize u.render)) <:+ u.core := by
  have hloc : u.location = u.core := if_neg hhost
  have hbody (x : Text) (hx : x <:+ u.core) : body (x ++ u.marksRead) = x := by
    rw [body_append fun c hc => (h.core c (hx.subset hc)).1, body_eq_nil u.head?_marksRead, List.append_nil]
  by_cases hnil : u.scheme = []
  · refine (afterScheme_spec _).1.trans ?_
    rw [h.sanitize_render_of_nil hnil, hloc, hbody _ (List.dropWhile_suffix _)]
    exact List.dropWhile_suffix _
  · rw [h.sanitize_render_of_ne_nil hs hnil, afterScheme_of_mem hs hnil, hloc, hbody _ (List.suffix_refl _)]

end Clean

/-- A locator that is written and read again has the same query, and of its path no more than it had. -/
theorem parse_render (hc : u.Clean) (hs : u.scheme ∈ relativeSchemes) (h : parse u.render = .ok v) :
    v.query = u.query ∧ ∃ r, CodePoint.char '/' ∉ r ∧ unslash v.core ++ r <:+ unslash u.core := by
  obtain ⟨-, -, hquery, -, -⟩ := parseUnder_eq_ok h
  obtain ⟨-, r, hr, hcore⟩ := exists_core_of_parseUnder h
  refine ⟨by rw [hquery, (afterHost_spec _).2, (afterScheme_spec _).2, hc.queryIn_sanitize hs], r, hr, ?_⟩
  rw [← unslash_append hr, ← hcore]
  by_cases hhost : u.ShowsHost
  · have hrooted : body (afterHost (afterScheme (sanitize u.render))) = u.rooted := by
      rw [hc.afterScheme_of_showsHost hs hhost, afterHost_append (fun c hc' => (hc.netloc c hc').1) u.head?_rooted_append,
        body_append fun c hc' => (hc.rooted c hc').1, body_eq_nil u.head?_marksRead, List.append_nil]
    rw [hrooted, unslash_rooted]
  · exact unslash_suffix ((afterHost_spec _).1.trans (hc.body_afterScheme_suffix hs hhost))

theorem cutOptional_of_not_mem (h : c ∉ s) : cutOptional c s = (s, []) := by
  rcases cutOptional_spec c s with ⟨hs, hnil⟩ | hs
  · exact Prod.ext hs.symm hnil
  · exact absurd (hs ▸ List.mem_append_right _ List.mem_cons_self) h

theorem cutParams_of_not_mem (h : CodePoint.char ';' ∉ s) : cutParams s = (s, []) := by
  obtain ⟨-, ⟨hs, hnil⟩ | hs⟩ := cutParams_spec s
  · exact Prod.ext hs.symm hnil
  · exact absurd (hs ▸ List.mem_append_right _ List.mem_cons_self) h

/-- A text from which nothing is cut is all path. -/
theorem parse_of_uncut (hsan : sanitize s = s) (hscheme : cutScheme? s = none) (htwo : Text.after? "//" s = none)
    (hmark : ∀ c ∈ s, isMark c = false) (hparams : cutParams s = (s, [])) : parse s = .ok ⟨[], [], s, [], [], []⟩ := by
  have hmark (c : CodePoint) (hc : isMark c = true) : c ∉ s := fun hm => by simp [hmark c hm] at hc
  have hschemes : ([] : Text) ∈ paramsSchemes := List.mem_cons_self
  have hnetloc : checkNetloc [] = .ok () := rfl
  simp only [parse, parseUnder, hsan, hscheme, Option.getD_none, htwo, hnetloc, cutOptional_of_not_mem (hmark '#' rfl),
    cutOptional_of_not_mem (hmark '?' rfl), if_pos hschemes, hparams]

/-- An absolute path without marks is all that its locator has. -/
theorem parse_of_plain (hhead : s.head? = some (.char '/')) (htwo : Text.after? "//" s = none)
    (hs : ∀ c ∈ s, isMark c = false ∧ isBreak c = false ∧ c ≠ ';') : parse s = .ok ⟨[], [], s, [], [], []⟩ := by
  obtain ⟨t, rfl⟩ := List.head?_eq_some_iff.1 hhead
  have hsan : sanitize (.char '/' :: t) = .char '/' :: t := by
    have happ := sanitize_append (x := .char '/' :: t) (y := []) (fun c hc => (hs c hc).2.1) (by simp)
    rw [List.append_nil, List.filter_nil, List.append_nil] at happ
    exact happ
  exact parse_of_uncut hsan (cutScheme?_of_slash t) htwo (fun c hc => (hs c hc).1)
    (cutParams_of_not_mem fun hm => (hs _ hm).2.2 rfl)

end Url
end StylePrune
