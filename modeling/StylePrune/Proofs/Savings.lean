import StylePrune.Proofs.Css.Rendering
import StylePrune.Proofs.Replacement

/-!
What cleaning saves. A cleaned sheet takes no more bytes than the sheet as it was read; what was read takes more bytes than
the file only where ill-formed bytes were replaced.
-/

set_option autoImplicit false

namespace StylePrune

namespace Css

/-- A brace ends the group. -/
def Enclosure.IsClosed (g : Enclosure) : Prop := Text.endsWith g.text ['\x7d'] = true

/-- A brace ends each group of the sheet. -/
def Closed (css : Text) : Prop :=
  ∀ cs, components (normalizeNewlines css) = .ok cs →
    ∀ g ∈ (LinedText.ofText (normalizeNewlines css)).groups (Rule.ofComponents cs) (normalizeNewlines css).length,
      g.IsClosed

theorem closed_of_groups {css : Text} {texts : List Text} (h : (components (normalizeNewlines css)).map (fun cs =>
      ((LinedText.ofText (normalizeNewlines css)).groups (Rule.ofComponents cs) (normalizeNewlines css).length).map
        Enclosure.text) = .ok texts) (ht : ∀ t ∈ texts, Text.endsWith t ['\x7d'] = true) : Closed css := by
  intro cs hc g hg
  obtain ⟨cs', hc', hgs⟩ := exists_of_map_eq_ok h
  obtain rfl := Except.ok.inj (hc.symm.trans hc')
  exact ht _ (hgs ▸ List.mem_map_of_mem hg)

theorem utf8Size_normalizeNewlines_le (s : Text) : Text.utf8Size (normalizeNewlines s) ≤ Text.utf8Size s := by
  have hline : CodePoint.utf8Size '\n' = 1 := rfl
  fun_induction normalizeNewlines s with
  | case1 => exact Nat.le_refl _
  | case2 s ih =>
    simp only [Text.utf8Size_cons, hline]
    omega
  | case3 c s hne ih =>
    have := c.utf8Size_pos
    rw [Text.utf8Size_cons, Text.utf8Size_cons]
    split
    · rw [hline]
      omega
    · omega

namespace LinedText

variable {src : LinedText} {i j : Nat} {ns : List Node} {tr : Text} {gs : List Enclosure}

/-- Where a brace ends each group, the braces that are written stand for characters of the text. -/
theorem Tiles.utf8Size_le (h : src.Tiles i j ns tr gs) (hj : j ≤ src.text.length) (hg : ∀ g ∈ gs, g.IsClosed) :
    Text.utf8Size (renderAll ns ++ tr) ≤ Text.utf8Size (src.slice i j) := by
  induction h with
  | trail h => simp [renderAll]
  | solo hn h₁ h₂ ht ih =>
    have := ih hj hg
    rw [render_solo_append hn h₁ h₂, ← slice_append src (by omega) ht.le]
    simp only [Text.utf8Size_append] at this ⊢
    omega
  | @group g cs ns t tr content gs hs i m c l j hl hh h₁ h₂ h₃ h₄ hmark hc ht ihc ih =>
    obtain ⟨hclosed, hgs, hhs⟩ := by simpa only [List.forall_mem_cons, List.forall_mem_append] using hg
    have hlj := ht.le
    have hstop : src.contentStop m l = l - 1 := if_pos hclosed
    have hcontent := ihc (by omega) hgs
    have hrest := ih hj hhs
    have hopener := Text.length_le_utf8Size (src.slice (c - 1) c)
    have hcloser := Text.length_le_utf8Size (src.slice (l - 1) l)
    rw [length_slice (by omega)] at hopener hcloser
    have hbraces : CodePoint.utf8Size Bracket.curly.opener = 1 ∧ CodePoint.utf8Size Bracket.curly.closer = 1 := ⟨rfl, rfl⟩
    rw [render_group_append hl hh h₁ h₂, slice_group (by omega) h₃ (src.contentStop_le m l) hlj]
    simp only [Text.utf8Size_append, Text.utf8Size_cons, hbraces, hstop] at hcontent hrest ⊢
    omega

end LinedText

/-- A sheet whose groups are closed is not larger when it is written again. -/
theorem Sheet.utf8Size_render_le {css : Text} {sheet : Sheet} (h : parse css = .ok sheet) (hg : Closed css) :
    Text.utf8Size sheet.render ≤ Text.utf8Size css := by
  obtain ⟨cs, hc, hr⟩ := parse_eq_ok_iff.1 h
  generalize hT : normalizeNewlines css = T at hc hr
  have hl := LinedText.lies_components (hT ▸ clean_normalizeNewlines css) hc
  have ht := LinedText.readsTiles _ cs hl (LinedText.halts_all T) (Nat.le_refl _) (by rwa [LinedText.slice_self])
  have hgs := hT ▸ hg cs (hT ▸ hc)
  generalize (LinedText.ofText T).startOf (Rule.ofComponents cs) T.length = i at ht
  calc Text.utf8Size sheet.render
      ≤ Text.utf8Size ((LinedText.ofText T).slice i T.length) := ht.utf8Size_le (Nat.le_refl _) hgs
    _ ≤ Text.utf8Size T :=
      Text.utf8Size_le_of_sublist ((List.take_sublist ..).trans (List.drop_sublist ..))
    _ ≤ Text.utf8Size css := hT ▸ utf8Size_normalizeNewlines_le css

end Css

/-- The bytes of a stylesheet as they are on the disk. -/
def Site.bytes? (s : Site) (d : Disk) (file : Text) : Option Bytes :=
  (locate s d file).toOption.bind fun place => (d.open? (Disk.pathOf place)).toOption.map Prod.fst

theorem Site.bytes?_of_open {s : Site} {d : Disk} {file : Text} {place : Place} {bytes : Bytes} {modified : Int}
    (hl : locate s d file = .ok place) (ho : d.open? (Disk.pathOf place) = .ok (bytes, modified)) :
    s.bytes? d file = some bytes := by
  rw [bytes?, hl]
  simp [Except.toOption, ho]

theorem Site.exists_bytes_of_read {s : Site} {locked : Text → Bool} {d : Disk} {file : Text} {r : Text × Nat}
    (h : read s locked d file = .ok r) :
    ∃ bytes, s.bytes? d file = some bytes ∧ r = (Utf8.decodeLossy (Utf8.dropMark bytes), bytes.length) := by
  obtain ⟨place, bytes, modified, hl, hopen, -, -, hr⟩ := read_eq_ok h
  exact ⟨bytes, bytes?_of_open hl hopen, hr⟩

namespace Generation

open Disk (Action)
open Utf8 (decodeLossy decode? dropMark growth)

variable {u : Setup} {w : Faults} {d d' : Disk} {st : Statuses}

theorem utf8Size_clean_le {css : Text} {c : Text × Nat} (h : clean st css = .ok c) (hg : Css.Closed css) :
    Text.utf8Size c.1 ≤ Text.utf8Size css := by
  obtain ⟨sheet, hp, rfl⟩ := Css.exists_of_map_eq_ok h
  have hsub : (sheet.prune st).1.render.Sublist sheet.render :=
    (Css.render_pruneAll_sublist st sheet.children).append (List.Sublist.refl sheet.trailing)
  exact Nat.le_trans (Text.utf8Size_le_of_sublist hsub) (sheet.utf8Size_render_le hp hg)

/-- What is left of a sheet takes no more bytes than its file has and replacing adds. -/
theorem utf8Size_clean_le_add {bytes : Bytes} {c : Text × Nat} (h : clean st (decodeLossy (dropMark bytes)) = .ok c)
    (hg : Css.Closed (decodeLossy (dropMark bytes))) : Text.utf8Size c.1 ≤ bytes.length + growth (dropMark bytes) :=
  calc Text.utf8Size c.1
      ≤ Text.utf8Size (decodeLossy (dropMark bytes)) := utf8Size_clean_le h hg
    _ = (dropMark bytes).length + growth (dropMark bytes) := Utf8.utf8Size_decodeLossy _
    _ ≤ bytes.length + growth (dropMark bytes) := Nat.add_le_add_right (Utf8.length_dropMark_le bytes) _

/-- The bytes, without a mark, of the files of which texts were made. -/
def sources (u : Setup) (os : List Output) : List Bytes :=
  os.filterMap fun o => (u.site.bytes? o.disk o.cleaned.file).map dropMark

theorem sum_size_le {os : List Output} (h : ∀ o ∈ os, ∃ bytes, u.site.bytes? o.disk o.cleaned.file = some bytes ∧
      o.cleaned.size ≤ o.cleaned.sizeBefore + growth (dropMark bytes)) :
    (os.map (·.cleaned.size)).sum ≤ (os.map (·.cleaned.sizeBefore)).sum + ((sources u os).map growth).sum := by
  induction os with
  | nil => exact Nat.le_refl _
  | cons o os ih =>
    obtain ⟨⟨bytes, hb, hsize⟩, hos⟩ := List.forall_mem_cons.1 h
    have hs : sources u (o :: os) = dropMark bytes :: sources u os := by
      rw [sources, List.filterMap_cons, hb]
      rfl
    have := ih hos
    simp only [hs, List.map_cons, List.sum_cons]
    omega

theorem sum_growth_eq_zero {bs : List Bytes} (h : ∀ b ∈ bs, (decode? b).isSome) : (bs.map growth).sum = 0 :=
  List.sum_eq_zero (List.forall_mem_map.2 fun b hb => Utf8.growth_of_decode? (h b hb))

/-- Cleaning a sheet whose groups are closed makes it larger only where ill-formed bytes are replaced, and so a run that
reads such sheets loses no more than that: nothing, if they are well-formed. -/
theorem neg_growth_le_saved :
    (∀ (s : Site) (locked : Text → Bool) (d : Disk) (file : Text) (st : Statuses) (r c : Text × Nat),
      Site.read s locked d file = .ok r → Css.Closed r.1 → clean st r.1 = .ok c →
        ∃ bytes, s.bytes? d file = some bytes ∧ r.2 = bytes.length ∧
          Text.utf8Size c.1 ≤ r.2 + growth (dropMark bytes) ∧
          ((decode? (dropMark bytes)).isSome → Text.utf8Size c.1 ≤ r.2)) ∧
    ∀ (u : Setup) (w : Faults) (moment : Text) (l : Ledger) (d d' : Disk) (r : Result),
      run u w moment l d = (.ok r, d') → ∃ failed d₀, backUp u moment l d = (.ok failed, d₀) ∧
        r.files = (outputs u w (filesOf l) d₀).map (·.cleaned.file) ∧
        ((∀ b ∈ sources u (outputs u w (filesOf l) d₀), Css.Closed (decodeLossy b)) →
          -(((sources u (outputs u w (filesOf l) d₀)).map growth).sum : Int) ≤ r.statistics.saved ∧
          ((∀ b ∈ sources u (outputs u w (filesOf l) d₀), (decode? b).isSome) → 0 ≤ r.statistics.saved)) := by
  constructor
  · intro s locked d file st r c hr hg hc
    obtain ⟨bytes, hb, rfl⟩ := Site.exists_bytes_of_read hr
    have hle := utf8Size_clean_le_add hc hg
    refine ⟨bytes, hb, rfl, hle, fun hd => ?_⟩
    rwa [Utf8.growth_of_decode? hd] at hle
  · intro u w moment l d d' r h
    obtain ⟨failed, d₀, lines, hbackup, -, haccounts⟩ := exists_accounts_of_run h
    refine ⟨failed, d₀, hbackup, haccounts.files, fun hg => ?_⟩
    generalize outputs u w (filesOf l) d₀ = os at haccounts hg ⊢
    have hsizes : ∀ o ∈ os, ∃ bytes, u.site.bytes? o.disk o.cleaned.file = some bytes ∧
        o.cleaned.size ≤ o.cleaned.sizeBefore + growth (dropMark bytes) := by
      intro o ho
      obtain ⟨st, place, bytes, modified, content, -, hl, hopen, hbefore, hclean, -⟩ := haccounts.measured o ho
      have hb := Site.bytes?_of_open hl hopen
      have hsource : dropMark bytes ∈ sources u os := List.mem_filterMap.2 ⟨o, ho, by rw [hb]; rfl⟩
      exact ⟨bytes, hb, hbefore ▸ utf8Size_clean_le_add hclean (hg _ hsource)⟩
    have hsum := sum_size_le hsizes
    rw [← haccounts.sizeAfter, ← haccounts.sizeBefore] at hsum
    have hsaved : -(((sources u os).map growth).sum : Int) ≤ r.statistics.saved := by
      have : r.statistics.saved = (r.statistics.sizeBefore : Int) - r.statistics.sizeAfter := rfl
      simp only at hsum
      omega
    refine ⟨hsaved, fun hd => ?_⟩
    rwa [sum_growth_eq_zero hd] at hsaved

/-- The site with another sheet, and with what has been written. -/
def sheetDisk (bytes : Bytes) (written : List (Place × Entry)) : Disk :=
  ⟨Table.ofList (([(["s"], .directory), (["s", "a.css"], .file bytes 0)] : List (Place × Entry)) ++ written)⟩

/-- A ledger of one sheet of which nothing is known. -/
def oneSheet : Ledger := Table.ofList [("a.css", Table.empty)]

section OneSheet

variable {bytes : Bytes} {text m : Text} {written : List (Place × Entry)} {d' : Disk}

theorem resolve_sheetDisk (bytes : Bytes) : (sheetDisk bytes []).resolve "/s" = .ok [("s" : Text)] ∧
    (sheetDisk bytes []).resolve (Path.join (Disk.pathOf [("s" : Text)]) "a.css") = .ok [("s" : Text), "a.css"] ∧
    (sheetDisk bytes []).open? (Disk.pathOf [("s" : Text), "a.css"]) = .ok (bytes, 0) := by
  refine ⟨?_, ?_, ?_⟩ <;> cbv

theorem read_sheetDisk (hs : bytes.length ≤ inner.site.maxSize) :
    Site.read inner.site Faults.none.locked (sheetDisk bytes []) "a.css" =
      .ok (decodeLossy (dropMark bytes), bytes.length) := by
  obtain ⟨hroot, hplace, ho⟩ := resolve_sheetDisk bytes
  exact Site.read_of_resolve (s := inner.site) (by decide) hroot hplace (by decide) ho hs rfl

theorem destination_sheetDisk (bytes : Bytes) : inner.destination (sheetDisk bytes []) "a.css" = .ok "/o/a.css" := by
  obtain ⟨hroot, hplace, -⟩ := resolve_sheetDisk bytes
  have hpath : Path.join "/o" (Path.relative (Disk.pathOf [("s" : Text)]) (Disk.pathOf [("s" : Text), "a.css"])) =
      "/o/a.css" := rfl
  simp only [Setup.destination, inner, hroot, hplace, bind, Except.bind, pure, Except.pure, hpath]

theorem prepare_sheetDisk (hs : bytes.length ≤ inner.site.maxSize)
    (hc : clean Table.empty (decodeLossy (dropMark bytes)) = .ok (text, 0)) :
    prepare inner Faults.none (sheetDisk bytes []) "a.css" Table.empty =
      .ok (⟨"a.css", text, bytes.length, 0⟩, "/o/a.css") := by
  have hl : Faults.none.late "a.css" = false := rfl
  simp only [prepare, hl, Bool.false_eq_true, if_false, read_sheetDisk hs, hc, destination_sheetDisk]

theorem run_sheetDisk (hs : bytes.length ≤ inner.site.maxSize)
    (hc : clean Table.empty (decodeLossy (dropMark bytes)) = .ok (text, 0))
    (hw : Disk.replaceFile "/o/a.css" text false (sheetDisk bytes []) = (.ok (), sheetDisk bytes written))
    (hb : bundle [⟨"a.css", text, bytes.length, 0⟩] = .ok m)
    (hm : Disk.replaceFile inner.bundlePath m false (sheetDisk bytes written) = (.ok (), d')) :
    run inner Faults.none [] oneSheet (sheetDisk bytes []) =
      (.ok ⟨["a.css"], [], .of [⟨"a.css", text, bytes.length, 0⟩] (some m)⟩, d') ∧
    sources inner (outputs inner Faults.none (filesOf oneSheet) (sheetDisk bytes [])) = [dropMark bytes] := by
  have hes : filesOf oneSheet = [(("a.css" : Text), (Table.empty : Statuses))] := rfl
  have hp := prepare_sheetDisk hs hc
  have hf := cleanFile_of_prepare hp hw
  constructor
  · have hnil : cleanFiles inner Faults.none [] (sheetDisk bytes written) = (.ok ⟨[], []⟩, sheetDisk bytes written) := rfl
    have hfiles := cleanFiles_cons_of_ok (e := ("a.css", Table.empty)) hf hnil
    rw [run, Action.bind_of_ok (backUp_of_none rfl), hes, Action.bind_of_ok hfiles,
      Action.bind_of_ok (writeBundle_of_ok (w := Faults.none) (List.cons_ne_nil _ _) hb hm)]
    rfl
  · obtain ⟨place, hpath, hout⟩ := outputs_cons_of_ok (e := ("a.css", Table.empty)) [] hf
    obtain ⟨b, hbytes, hr⟩ := Site.exists_bytes_of_read (read_sheetDisk hs)
    obtain ⟨hroot, hplace, ho⟩ := resolve_sheetDisk bytes
    have hlocate := Site.locate_of_resolve (s := inner.site) (by decide) hroot hplace (by decide) ho
    have hb := Site.bytes?_of_open (s := inner.site) hlocate ho
    rw [hes, hout, sources, List.filterMap_cons, hb]
    rfl

end OneSheet

/-- A group behind a comment with a byte that is no character's. -/
def strayByte : Bytes := 0x2F :: 0x2A :: 0xFF :: "*/@media x\x7b.y\x7b\x7d\x7d".toUTF8.toList

def strayText : Text := "/*\uFFFD*/@media x\x7b.y\x7b\x7d\x7d"

/-- What is read of that sheet, and what cleaning makes of it. -/
theorem strayByte_spec : decodeLossy (dropMark strayByte) = strayText ∧ strayByte.length = 19 ∧ Text.utf8Size strayText = 21 ∧
    clean Table.empty strayText = .ok (strayText, 0) ∧
    (Css.components (Css.normalizeNewlines strayText)).map (fun cs =>
      ((Css.LinedText.ofText (Css.normalizeNewlines strayText)).groups (Css.Rule.ofComponents cs)
        (Css.normalizeNewlines strayText).length).map Css.Enclosure.text) = .ok [("@media x\x7b.y\x7b\x7d\x7d" : Text)] := by
  refine ⟨by cbv, by cbv, by cbv, ?_, by cbv⟩
  have hp : Css.Sheet.parse strayText = .ok ⟨[.group ⟨"/*\uFFFD*/", "media", "@media x", "x"⟩
      [.block ⟨[], some (".y\x7b\x7d" : Text), ".y", [], [(".y" : Text)]⟩] []], []⟩ := by cbv
  rw [clean, hp]
  rfl

theorem read_strayByte : Site.read inner.site Faults.none.locked (sheetDisk strayByte []) "a.css" = .ok (strayText, 19) := by
  obtain ⟨hdecode, hlength, -⟩ := strayByte_spec
  rw [read_sheetDisk (hlength ▸ by decide), hdecode, hlength]

/-- The sheet with the stray byte grows by two bytes, and a run on a plain sheet loses nothing. -/
theorem saved_plain :
    (∃ bytes, inner.site.bytes? (sheetDisk strayByte []) "a.css" = some bytes ∧ 19 = bytes.length ∧
      Text.utf8Size strayText ≤ 19 + growth (dropMark bytes)) ∧
    ∃ r d', run inner Faults.none [] oneSheet (sheetDisk ".y\x7b\x7d".toUTF8.toList []) = (.ok r, d') ∧
      0 ≤ r.statistics.saved := by
  constructor
  · obtain ⟨-, -, -, hclean, hgroups⟩ := strayByte_spec
    obtain ⟨bytes, hb, hlength, hle, -⟩ :=
      neg_growth_le_saved.1 inner.site _ _ "a.css" _ _ _ read_strayByte (Css.closed_of_groups hgroups (by decide)) hclean
    exact ⟨bytes, hb, hlength, hle⟩
  · obtain ⟨hlength, hdecode⟩ := decode_inner
    have hc : clean Table.empty (decodeLossy (dropMark ".y\x7b\x7d".toUTF8.toList)) = .ok (".y\x7b\x7d", 0) := by
      have hp : Css.Sheet.parse ".y\x7b\x7d" =
          .ok ⟨[.block ⟨[], some (".y\x7b\x7d" : Text), ".y", [], [(".y" : Text)]⟩], []⟩ := by cbv
      rw [hdecode, clean, hp]
      rfl
    have hw : Disk.replaceFile "/o/a.css" ".y\x7b\x7d" false (sheetDisk ".y\x7b\x7d".toUTF8.toList []) =
        (.ok (), sheetDisk ".y\x7b\x7d".toUTF8.toList (written ".y\x7b\x7d")) := by cbv
    have hb : bundle [⟨"a.css", ".y\x7b\x7d", ".y\x7b\x7d".toUTF8.toList.length, 0⟩] = .ok (".y\x7b\x7d" : Text) := by cbv
    obtain ⟨d', hm⟩ : ∃ d', Disk.replaceFile inner.bundlePath ".y\x7b\x7d" false
        (sheetDisk ".y\x7b\x7d".toUTF8.toList (written ".y\x7b\x7d")) = (.ok (), d') := ⟨_, Prod.ext (by cbv) rfl⟩
    obtain ⟨hrun, hsources⟩ := run_sheetDisk (hlength ▸ by decide) hc hw hb hm
    refine ⟨_, d', hrun, ?_⟩
    obtain ⟨failed, d₀, hbackup, -, hsaved⟩ := neg_growth_le_saved.2 inner _ _ _ _ _ _ hrun
    obtain ⟨-, rfl⟩ := Prod.mk.inj ((backUp_of_none rfl).symm.trans hbackup)
    rw [hsources] at hsaved
    have hd : (decode? (dropMark ".y\x7b\x7d".toUTF8.toList)).isSome := by cbv
    have hgroups : (Css.components (Css.normalizeNewlines ".y\x7b\x7d")).map (fun cs =>
        ((Css.LinedText.ofText (Css.normalizeNewlines ".y\x7b\x7d")).groups (Css.Rule.ofComponents cs)
          (Css.normalizeNewlines ".y\x7b\x7d").length).map Css.Enclosure.text) = .ok [] := by cbv
    exact (hsaved (List.forall_mem_singleton.2 (hdecode ▸ Css.closed_of_groups hgroups (by decide)))).2
      (List.forall_mem_singleton.2 hd)

/-- What replaces the stray byte is longer than the byte, so the sheet grows and the run saves less than nothing. -/
theorem not_saved_nonneg :
    (¬ ∀ (s : Site) (locked : Text → Bool) (d : Disk) (file : Text) (st : Statuses) (r c : Text × Nat),
      Site.read s locked d file = .ok r → clean st r.1 = .ok c → Text.utf8Size c.1 ≤ r.2) ∧
    ¬ ∀ (u : Setup) (w : Faults) (moment : Text) (l : Ledger) (d d' : Disk) (r : Result),
      run u w moment l d = (.ok r, d') → 0 ≤ r.statistics.saved := by
  obtain ⟨hdecode, hlength, hsize, hclean, -⟩ := strayByte_spec
  constructor
  · intro h
    have := h inner.site _ _ "a.css" _ _ _ read_strayByte hclean
    rw [hsize] at this
    omega
  · intro h
    have hw : Disk.replaceFile "/o/a.css" strayText false (sheetDisk strayByte []) =
        (.ok (), sheetDisk strayByte (written "/*\uFFFD*/@media x\x7b.y\x7b\x7d\x7d")) := by cbv
    have hb : bundle [⟨"a.css", strayText, strayByte.length, 0⟩] = .ok ("@media x\x7b.y\x7b\x7d\x7d" : Text) := by cbv
    obtain ⟨d', hm⟩ : ∃ d', Disk.replaceFile inner.bundlePath "@media x\x7b.y\x7b\x7d\x7d" false
        (sheetDisk strayByte (written "/*\uFFFD*/@media x\x7b.y\x7b\x7d\x7d")) = (.ok (), d') :=
      ⟨_, Prod.ext (by cbv) rfl⟩
    have hs : strayByte.length ≤ inner.site.maxSize := hlength ▸ by decide
    have hle := h _ _ _ _ _ _ _ (run_sheetDisk hs (hdecode ▸ hclean) hw hb hm).1
    have hsaved : (Statistics.of [⟨"a.css", strayText, strayByte.length, 0⟩]
        (some "@media x\x7b.y\x7b\x7d\x7d")).saved = -2 := by cbv
    rw [hsaved] at hle
    omega

end Generation
end StylePrune
