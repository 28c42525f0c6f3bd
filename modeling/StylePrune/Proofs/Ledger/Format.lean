import Mathlib.Data.Set.List
import StylePrune.Proofs.Css.Origin
import StylePrune.Proofs.Disk.Repeating
import StylePrune.Proofs.Json.Reading
import StylePrune.Proofs.Ledger.Stored

/-!
Which files hold a ledger. Every ledger without halves of pairs can be saved and is loaded again in the same order. A
file is loaded if its text is the document of a ledger, and refused as a ledger if it is not, except that a text that
opens too many arrays and objects may be given up without being called a fault of the file.
-/

set_option autoImplicit false

namespace StylePrune

open Json (Document maxNesting openings)

/-- No half of a pair stands alone. -/
def Text.IsScalar (s : Text) : Prop := ∀ c ∈ s, c.char?.isSome

instance (s : Text) : Decidable s.IsScalar := inferInstanceAs (Decidable (∀ c ∈ s, c.char?.isSome))

namespace Text

variable {s t : Text} {c : CodePoint} {n : Nat}

@[simp] theorem isScalar_nil : IsScalar [] := by simp [IsScalar]

@[simp] theorem isScalar_cons : IsScalar (c :: s) ↔ c.char?.isSome ∧ IsScalar s := List.forall_mem_cons

@[simp] theorem isScalar_append : IsScalar (s ++ t) ↔ IsScalar s ∧ IsScalar t := List.forall_mem_append

@[simp] theorem isScalar_ofString (s : String) : IsScalar (ofString s) := by
  intro c hc
  obtain ⟨a, -, rfl⟩ := List.mem_map.1 hc
  rfl

theorem isScalar_paddedHex (w n : Nat) : IsScalar (paddedHex w n) := by
  intro c hc
  rw [paddedHex, List.leftpad, List.mem_append, digits] at hc
  rcases hc with hc | hc
  · rw [List.eq_of_mem_replicate hc]
    rfl
  · obtain ⟨a, -, rfl⟩ := List.mem_map.1 hc
    rfl

end Text

/-! ## What is written -/

namespace Json

open Text (IsScalar)

theorem isScalar_writeChar {c : CodePoint} (h : c.char?.isSome) : IsScalar (writeChar c) := by
  unfold writeChar
  iterate 7
    split
    · exact Text.isScalar_ofString _
  split
  · simp [writeUnit, Text.isScalar_paddedHex]
  · simpa using h

theorem isScalar_writeString {s : Text} (h : IsScalar s) : IsScalar (writeString s) := by
  have hs : IsScalar (s.flatMap writeChar) := by
    intro c hc
    obtain ⟨a, ha, hc⟩ := List.mem_flatMap.1 hc
    exact isScalar_writeChar (h a ha) c hc
  simp [writeString, hs, CodePoint.char?]

theorem isScalar_newline (depth : Nat) : IsScalar (newline depth) := by
  intro c hc
  rcases List.mem_cons.1 hc with rfl | hc
  · rfl
  · rw [List.eq_of_mem_replicate hc]
    rfl

theorem isScalar_writeFields {depth : Nat} {fs : List (Text × Json)}
    (h : ∀ f ∈ fs, IsScalar f.1 ∧ IsScalar (write depth f.2)) : IsScalar (writeFields depth fs) := by
  induction fs with
  | nil => simp [writeFields]
  | cons f fs ih =>
    obtain ⟨⟨hname, hv⟩, hfs⟩ := List.forall_mem_cons.1 h
    simp [writeFields, isScalar_newline, isScalar_writeString hname, hv, ih hfs, CodePoint.char?]

theorem isScalar_write_object {depth : Nat} {fs : List (Text × Json)}
    (h : ∀ f ∈ fs, IsScalar f.1 ∧ IsScalar (write (depth + 1) f.2)) : IsScalar (write depth (.object fs)) := by
  cases fs with
  | nil => exact Text.isScalar_ofString _
  | cons f fs =>
    obtain ⟨⟨hname, hv⟩, hfs⟩ := List.forall_mem_cons.1 h
    simp [write, isScalar_newline, isScalar_writeString hname, hv, isScalar_writeFields hfs, CodePoint.char?]

end Json

namespace Disk

variable {d d' : Disk} {path text text' : Text}

/-- A file can be put at the path. -/
def Takes (d : Disk) (path : Text) : Prop := (replaceFile path [] false d).1 = .ok ()

theorem Takes.replaceFile (h : d.Takes path) (ht : text.IsScalar) : ∃ d', Disk.replaceFile path text false d = (.ok (), d') := by
  obtain ⟨content, hc⟩ := Option.isSome_iff_exists.1 (Utf8.isSome_encode?_iff.2 ht)
  cases hm : makeDirectories (wayTo path) d with
  | mk r d₁ =>
    cases r with
    | error e => simp [Takes, replaceFile_of_makeDirectories_error hm] at h
    | ok _ =>
      rw [Takes, replaceFile_of_makeDirectories hm] at h
      obtain ⟨-, _, p, -, hp, hn, -⟩ := putFile_eq_ok (Prod.ext h rfl)
      exact ⟨_, by rw [replaceFile_of_makeDirectories hm, putFile_of_target hc hp hn]⟩

end Disk

namespace Ledger

open Disk (Takes)

/-! ## Documents -/

/-- An object of objects in which nothing but the two statuses stands. -/
def IsDocument (v : Json) : Prop := ∃ files, v = .object files ∧ ∀ f ∈ files, ∃ statuses, f.2 = .object statuses ∧
  ∀ s ∈ statuses, s.2 = .string "used" ∨ s.2 = .string "unused"

/-- What a ledger is made of, names that stand twice included. -/
abbrev Draft := List (Text × List (Text × Status))

/-- The fields of an object, one for each selector. -/
def fieldsOf (es : List (Text × Status)) : List (Text × Json) := es.map fun s => (s.1, .string s.2.name)

theorem statusOfJson?_eq_some_iff {v : Json} {st : Status} : statusOfJson? v = some st ↔ v = .string st.name := by
  constructor
  · intro h
    obtain ⟨s, hs, hst⟩ := Option.bind_eq_some_iff.1 h
    cases v <;> simp [Json.string?] at hs
    subst hs
    unfold Status.ofName? at hst
    split at hst
    · cases hst
      simp_all
    · split at hst
      · cases hst
        simp_all
      · cases hst
  · rintro rfl
    simp [statusOfJson?, Json.string?]

theorem statusesOfJson?_eq_some {fs : List (Text × Json)} {es : List (Text × Status)} (h : statusesOfJson? fs = some es) :
    fs = fieldsOf es := by
  induction fs generalizing es with
  | nil =>
    obtain rfl : es = [] := by simpa [statusesOfJson?, eq_comm] using h
    rfl
  | cons f fs ih =>
    simp only [statusesOfJson?, Option.bind_eq_bind, Option.bind_eq_some_iff, Option.pure_def, Option.some.injEq] at h
    obtain ⟨st, hst, rest, hrest, rfl⟩ := h
    have hf : f = (f.1, .string st.name) := Prod.ext rfl (statusOfJson?_eq_some_iff.1 hst)
    rw [hf, ih hrest]
    rfl

theorem filesOfJson?_eq_some {fs : List (Text × Json)} {gs : List (Text × List (Text × Json))}
    (h : filesOfJson? fs = some gs) : fs = gs.map fun g => (g.1, .object g.2) := by
  induction fs generalizing gs with
  | nil =>
    obtain rfl : gs = [] := by simpa [filesOfJson?, eq_comm] using h
    rfl
  | cons f fs ih =>
    simp only [filesOfJson?, Option.bind_eq_bind, Option.bind_eq_some_iff, Option.pure_def, Option.some.injEq] at h
    obtain ⟨inner, hinner, rest, hrest, rfl⟩ := h
    have hf : f.2 = .object inner := by
      cases hv : f.2 <;> simp [hv, Json.fields?] at hinner
      rw [hinner]
    rw [ih hrest, List.map_cons, ← hf]

theorem entriesOfFields?_eq_some {gs : List (Text × List (Text × Json))} {es : List (Text × Statuses)}
    (h : entriesOfFields? gs = some es) : ∃ draft : Draft, gs = draft.map (fun f => (f.1, fieldsOf f.2)) ∧
      es = draft.map fun f => (f.1, Table.ofList f.2) := by
  induction gs generalizing es with
  | nil =>
    obtain rfl : es = [] := by simpa [entriesOfFields?, eq_comm] using h
    exact ⟨[], rfl, rfl⟩
  | cons g gs ih =>
    simp only [entriesOfFields?, Option.bind_eq_bind, Option.bind_eq_some_iff, Option.pure_def, Option.some.injEq] at h
    obtain ⟨st, hst, rest, hrest, rfl⟩ := h
    obtain ⟨draft, rfl, rfl⟩ := ih hrest
    exact ⟨(g.1, st) :: draft, by simp [← statusesOfJson?_eq_some hst], rfl⟩

theorem statusesOfJson?_fieldsOf (es : List (Text × Status)) : statusesOfJson? (fieldsOf es) = some es :=
  statusesOfJson?_map es

theorem entriesOfFields?_draft (draft : Draft) : entriesOfFields? (draft.map fun f => (f.1, fieldsOf f.2)) =
    some (draft.map fun f => (f.1, Table.ofList f.2)) := by
  induction draft with
  | nil => rfl
  | cons f draft ih => simp [entriesOfFields?, statusesOfJson?_fieldsOf, ih]

/-- A document is a ledger's if it can be drafted. -/
theorem ofJson_eq_ok_iff {v : Json} {l : Ledger} : ofJson v = .ok l ↔ ∃ draft : Draft,
    v = .object (draft.map fun f => (f.1, .object (fieldsOf f.2))) ∧
      l = Table.ofList (draft.map fun f => (f.1, Table.ofList f.2)) := by
  constructor
  · intro h
    unfold ofJson at h
    split at h
    · cases h
    rename_i files hfiles
    split at h
    · cases h
    rename_i es hes
    obtain rfl := Except.ok.inj h
    obtain ⟨fs, hv, hfs⟩ := Option.bind_eq_some_iff.1 hfiles
    obtain ⟨draft, rfl, rfl⟩ := entriesOfFields?_eq_some hes
    refine ⟨draft, ?_, rfl⟩
    cases v <;> simp [Json.fields?] at hv
    rw [hv, filesOfJson?_eq_some hfs, List.map_map]
    rfl
  · rintro ⟨draft, rfl, rfl⟩
    simp [ofJson, Json.fields?, filesOfJson?_map, entriesOfFields?_draft]

theorem exists_fieldsOf {statuses : List (Text × Json)}
    (h : ∀ s ∈ statuses, s.2 = .string "used" ∨ s.2 = .string "unused") : ∃ es, fieldsOf es = statuses := by
  suffices statuses ∈ Set.range (List.map fun s : Text × Status => (s.1, Json.string s.2.name)) from this
  rw [Set.range_list_map]
  intro s hs
  rcases h s hs with hu | hu
  · exact ⟨(s.1, .used), Prod.ext rfl hu.symm⟩
  · exact ⟨(s.1, .unused), Prod.ext rfl hu.symm⟩

theorem isDocument_iff {v : Json} : IsDocument v ↔ ∃ l, ofJson v = .ok l := by
  constructor
  · rintro ⟨files, rfl, h⟩
    have hdraft : files ∈ Set.range (List.map fun f : Text × List (Text × Status) => (f.1, Json.object (fieldsOf f.2))) := by
      rw [Set.range_list_map]
      intro f hf
      obtain ⟨statuses, hv, hs⟩ := h f hf
      obtain ⟨es, rfl⟩ := exists_fieldsOf hs
      exact ⟨(f.1, es), Prod.ext rfl hv.symm⟩
    obtain ⟨draft, rfl⟩ := hdraft
    exact ⟨_, ofJson_eq_ok_iff.2 ⟨draft, rfl, rfl⟩⟩
  · rintro ⟨l, h⟩
    obtain ⟨draft, rfl, -⟩ := ofJson_eq_ok_iff.1 h
    refine ⟨_, rfl, fun f hf => ?_⟩
    obtain ⟨g, -, rfl⟩ := List.mem_map.1 hf
    refine ⟨_, rfl, fun s hs => ?_⟩
    obtain ⟨⟨_, st⟩, -, rfl⟩ := List.mem_map.1 hs
    cases st <;> simp [Status.name]

/-- What is read from a text is a ledger's document if it is the ledger's own one: no name stands twice in it. -/
theorem ofJson_eq_ok_iff_of_value {k : Nat} {s r : Text} {v : Json} {l : Ledger} (hv : Json.Value k s v r) :
    ofJson v = .ok l ↔ v = l.toJson := by
  constructor
  · intro h
    obtain ⟨draft, rfl, rfl⟩ := ofJson_eq_ok_iff.1 h
    obtain ⟨hnodup, hvalues⟩ := hv.object_fields
    have hentries {f : Text × List (Text × Status)} (hf : f ∈ draft) : (Table.ofList f.2).entries = f.2 := by
      obtain ⟨_, _, _, hinner⟩ := hvalues _ (List.mem_map_of_mem hf)
      refine Table.entries_ofList ?_
      simpa [fieldsOf, Function.comp_def] using hinner.object_fields.1
    have hfiles : (draft.map fun f => (f.1, Table.ofList f.2)).map Prod.fst = (draft.map Prod.fst) := by
      simp [Function.comp_def]
    rw [toJson, Table.entries_ofList (by simpa [Function.comp_def] using hnodup), List.map_map]
    refine congrArg Json.object (List.map_congr_left fun f hf => ?_)
    simp [hentries hf, fieldsOf]
  · rintro rfl
    exact ofJson_toJson l

/-! ## Files -/

section

variable {content : Bytes} {l : Ledger} {s : Text}

theorem ofJson_ne_tooDeep (v : Json) (t : Json.TooDeep) : ofJson v ≠ .error (.tooDeep t) := by
  unfold ofJson
  split
  · simp
  · split <;> simp

theorem ofBytes_of_parse {v : Json} (hs : Utf8.decode? content = some s) (hv : Json.parse s = .ok v) :
    ofBytes content = ofJson v := by
  simp [ofBytes, hs, hv]

theorem ofBytes_eq_ok_iff : ofBytes content = .ok l ↔ ∃ s, Utf8.decode? content = some s ∧
    Document maxNesting s l.toJson := by
  simp only [← Json.parse_eq_ok_iff]
  constructor
  · intro h
    unfold ofBytes at h
    split at h
    · cases h
    · cases h
    · cases h
    · rename_i v hv
      obtain ⟨s, hs, hv⟩ := Option.map_eq_some_iff.1 hv
      obtain ⟨_, _, -, hvalue, -⟩ := Json.parse_eq_ok_iff.1 hv
      exact ⟨s, hs, (ofJson_eq_ok_iff_of_value hvalue).1 h ▸ hv⟩
  · rintro ⟨s, hs, hv⟩
    rw [ofBytes_of_parse hs hv, ofJson_toJson]

theorem ofBytes_eq_tooDeep_iff {t : Json.TooDeep} : ofBytes content = .error (.tooDeep t) ↔
    ∃ s, Utf8.decode? content = some s ∧ Json.parse s = .error (.tooDeep t) := by
  constructor
  · intro h
    unfold ofBytes at h
    split at h
    · rename_i d hd
      obtain ⟨s, hs, hd⟩ := Option.map_eq_some_iff.1 hd
      obtain rfl : d = t := by simpa using h
      exact ⟨s, hs, hd⟩
    · cases h
    · cases h
    · exact absurd h (ofJson_ne_tooDeep _ t)
  · rintro ⟨s, hs, hd⟩
    simp [ofBytes, hs, hd]

/-- Unless it is given up for its depth, a file is at fault if it holds no document of a ledger. -/
theorem exists_error_iff (h : ∀ t, ofBytes content ≠ .error (.tooDeep t)) : (∃ c, ofBytes content = .error c) ↔
    ¬ ∃ s levels v, Utf8.decode? content = some s ∧ Document levels s v ∧ IsDocument v := by
  constructor
  · rintro ⟨c, hc⟩ ⟨s, levels, v, hs, hv, hdoc⟩
    obtain ⟨l, hl⟩ := isDocument_iff.1 hdoc
    obtain hread | ⟨-, t, hread⟩ := hv.reads
    · rw [ofBytes_of_parse hs hread, hl] at hc
      cases hc
    · exact h t (ofBytes_eq_tooDeep_iff.2 ⟨s, hs, hread⟩)
  · intro hn
    cases hc : ofBytes content with
    | error c => exact ⟨c, rfl⟩
    | ok l =>
      obtain ⟨s, hs, hv⟩ := ofBytes_eq_ok_iff.1 hc
      exact absurd ⟨s, maxNesting, l.toJson, hs, hv, isDocument_iff.2 ⟨l, ofJson_toJson l⟩⟩ hn

end

/-! ## Saving and loading -/

def IsScalar (l : Ledger) : Prop := ∀ f ∈ l.entries, f.1.IsScalar ∧ ∀ s ∈ f.2.entries, s.1.IsScalar

instance (l : Ledger) : Decidable l.IsScalar :=
  inferInstanceAs (Decidable (∀ f ∈ l.entries, f.1.IsScalar ∧ ∀ s ∈ f.2.entries, s.1.IsScalar))

theorem IsScalar.render {l : Ledger} (h : l.IsScalar) : l.toJson.render.IsScalar := by
  refine Json.isScalar_write_object fun e he => ?_
  obtain ⟨f, hf, rfl⟩ := List.mem_map.1 he
  refine ⟨(h f hf).1, Json.isScalar_write_object fun e he => ?_⟩
  obtain ⟨s, hs, rfl⟩ := List.mem_map.1 he
  exact ⟨(h f hf).2 s hs, Json.isScalar_writeString (by cases s.2 <;> exact Text.isScalar_ofString _)⟩

section

variable {d : Disk} {path : Text} {q : Place} {l : Ledger}

theorem exists_save (h : Takes d path) (hl : l.IsScalar) : ∃ d', save path l false d = (.ok (), d') := by
  obtain ⟨d', hd'⟩ := h.replaceFile hl.render
  exact ⟨d', Disk.Action.mapError_of_ok hd' _⟩

theorem load_save (hs : Seat d path q) (hn : d.entryAt? path ≠ some .directory) (h : Takes d path) (hl : l.IsScalar) :
    ∃ d', save path l false d = (.ok (), d') ∧ load path d' = .ok l := by
  obtain ⟨d', hd'⟩ := exists_save h hl
  obtain ⟨-, -, ⟨⟨e, he⟩, -⟩ | ⟨-, hfind, content, hc, hput⟩⟩ := hs.save_cases hn hd'
  · cases he
  · exact ⟨d', hd', load_of_encode? hc (Disk.entryAt?_eq_some_iff.2 ⟨q, hfind, hput⟩)⟩

end

/-- The file at the path is told to hold no ledger. -/
def IsRefused (path : Text) (d : Disk) : Prop := ∃ c, load path d = .error c ∧ ∀ t, c ≠ .tooDeep t

/-- A ledger that is saved is loaded again, with its files and selectors in the same order. A file is loaded as a ledger
if its text is that ledger's document, and it is refused if its text is no ledger's, unless it is given up for its
depth. That happens only to texts that open more than may be open, and it does happen to them whatever they go on
with. -/
theorem load_save_and_refused_iff {d : Disk} {path : Text} :
    (∀ {q : Place} {l : Ledger}, Seat d path q → d.entryAt? path ≠ some .directory → Takes d path → l.IsScalar →
      ∃ d', save path l false d = (.ok (), d') ∧ load path d' = .ok l) ∧
    ∀ {content : Bytes} {modified : Int}, d.entryAt? path = some (.file content modified) →
      (∀ l, load path d = .ok l ↔ ∃ s, Utf8.decode? content = some s ∧ Document maxNesting s l.toJson) ∧
      ((∀ t, load path d ≠ .error (.tooDeep t)) → (IsRefused path d ↔
        ¬ ∃ s levels v, Utf8.decode? content = some s ∧ Document levels s v ∧ IsDocument v)) ∧
      (∀ t, load path d = .error (.tooDeep t) → ∃ s, Utf8.decode? content = some s ∧ maxNesting < openings s) ∧
      ∀ r, Utf8.decode? content = some (List.replicate (maxNesting + 1) (.char '[') ++ r) →
        load path d = .error (.tooDeep .array) := by
  refine ⟨load_save, fun {content modified} he => ?_⟩
  have hload : load path d = ofBytes content := by rw [load_eq, he]
  simp only [IsRefused, hload]
  refine ⟨fun l => ofBytes_eq_ok_iff, fun h => ?_, fun t ht => ?_, fun r hr => ?_⟩
  · rw [← exists_error_iff h]
    exact ⟨fun ⟨c, hc, _⟩ => ⟨c, hc⟩, fun ⟨c, hc⟩ => ⟨c, hc, fun t ht => h t (ht ▸ hc)⟩⟩
  · obtain ⟨s, hs, hd⟩ := ofBytes_eq_tooDeep_iff.1 ht
    exact ⟨s, hs, Json.openings_of_parse hd⟩
  · exact ofBytes_eq_tooDeep_iff.2 ⟨_, hr, Json.parse_replicate r⟩

/-- A disk of one file. -/
def oneFile (content : Bytes) : Disk := ⟨Table.ofList [(["l"], .file content 0)]⟩

/-- A ledger of marks, controls, line separators and a character beyond the first 65536. -/
def awkward : Ledger := Table.ofList [("a\"\\\n\u2028.css", Table.ofList [("\x01\x7f", .used), ("😀", .unused)]),
  ("inline", Table.empty)]

/-- The awkward ledger comes back, and a file of brackets alone is not told to hold no ledger. -/
theorem load_save_awkward : (∃ d', save "/l" awkward false (oneFile []) = (.ok (), d') ∧ load "/l" d' = .ok awkward) ∧
    ∃ content, Utf8.encode? (List.replicate (maxNesting + 1) (.char '[')) = some content ∧
      load "/l" (oneFile content) = .error (.tooDeep .array) := by
  have hentry (content : Bytes) : (oneFile content).entryAt? "/l" = some (.file content 0) := by cbv
  have hseat : Seat (oneFile []) "/l" ["l"] := .there (hentry []) (by cbv)
  refine ⟨load_save_and_refused_iff.1 hseat (by simp [hentry]) (by cbv) (by decide), ?_⟩
  obtain ⟨content, hc⟩ : ∃ content, Utf8.encode? (List.replicate (maxNesting + 1) (.char '[')) = some content :=
    Option.isSome_iff_exists.1 (Utf8.isSome_encode?_iff.2 fun c hc => by rw [List.eq_of_mem_replicate hc]; rfl)
  refine ⟨content, hc, (load_save_and_refused_iff.2 (hentry content)).2.2.2 [] ?_⟩
  rw [List.append_nil, Utf8.decode?_of_encode? hc]

end Ledger
end StylePrune
