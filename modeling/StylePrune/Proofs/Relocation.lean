import StylePrune.Proofs.Disk.Hosting
import StylePrune.Proofs.Disk.Sharing
import StylePrune.Proofs.Separation
import StylePrune.Proofs.Server

/-!
One site served from two places. Nothing in the responses to requests that save tells the places apart, as long as no
path of a file leads off the site and back to it. A path that goes up from the root and comes back by the names of
directories above it tells them apart: whether it finds a file depends on these names.
-/

set_option autoImplicit false

namespace StylePrune

theorem SourceKey.isRelative_of_ofReference {reference file : Text} (h : ofReference reference = .ok file) :
    Path.isAbsolute file = false := by
  have relative (t : Text) : Path.isAbsolute (t.dropWhile (· = .char '/')) = false := by
    unfold Path.isAbsolute
    cases ht : t.dropWhile (· = .char '/') with
    | nil => rfl
    | cons c s =>
      have := List.head?_dropWhile_not (fun c : CodePoint => decide (c = .char '/')) t
      rw [ht] at this
      simpa using this
  unfold ofReference at h
  split at h
  · obtain rfl := Except.ok.inj h
    subst_vars
    rfl
  · cases hu : Url.parse reference with
    | error e => simp [hu, Except.map] at h
    | ok u =>
      rw [hu] at h
      exact Except.ok.inj h ▸ relative _

namespace Disk

variable {C : Place → Prop} {site : Place → Option Entry} {d d' d₀ d₀' : Disk} {root root' : Text} {r r' : Place}

theorem Hosts.of_evolves {written : Place → Prop} (h : Hosts site d₀ root r) (he : Evolves C written d₀ d)
    (hw : ∀ p, written p → C p) (hl : ∀ p t, written p → d₀.entry? p ≠ some (.link t)) (ha : ∀ p, C p → ¬ r <+: p) :
    Hosts site d root r where
  resolve := by rw [resolve_congr (he.sameLinks hl), h.resolve]
  directory q hq := he.inherits.later.directory (h.directory q hq)
  named := h.named
  entry q := by
    have hq : ¬ C (r ++ q) := fun hc => ha _ hc (List.prefix_append r q)
    rw [he.entry?_eq hq (mt (hw _) hq), h.entry]

/-- One site stands at two places on two disks, and some places apart from it are the same on both. Of what else is on
the disks nothing is known. -/
structure Twins (C : Place → Prop) (site : Place → Option Entry) (root root' : Text) (r r' : Place) (d d' : Disk) :
    Prop where
  here : Hosts site d root r
  there : Hosts site d' root' r'
  same : ∀ p, C p → d'.entry? p = d.entry? p
  apart : ∀ p, C p → ¬ r <+: p ∧ ¬ r' <+: p

/-- The path of a file does not tell at which of two places a site stands: it stays on the site, or it leads to
something off the site from both, or to the same name that no file has. -/
inductive Discreet (site : Place → Option Entry) (d d' : Disk) (r r' : Place) (file : Text) : Prop
  | stays (h : StaysOn site file)
  | leaves {p p' : Place} (h : d.resolve (Path.join (pathOf r) file) = .ok p) (hp : isBelow r p = false)
      (h' : d'.resolve (Path.join (pathOf r') file) = .ok p') (hp' : isBelow r' p' = false)
  | unnamed {b : BadName} (h : d.resolve (Path.join (pathOf r) file) = .error b)
      (h' : d'.resolve (Path.join (pathOf r') file) = .error b)

namespace Twins

variable (h : Twins C site root root' r r' d₀ d₀')
include h

theorem beside : Beside C d₀ d₀' d₀ d₀' := ⟨h.same, Evolves.refl _ _ d₀, Evolves.refl _ _ d₀'⟩

variable (hb : Beside C d₀ d₀' d d')
include hb

theorem sameLinks' : SameLinks d₀' d' := hb.right.sameLinks fun p t hw => by
  rw [h.same p hw.1]
  exact hw.2 t

theorem hosts : Hosts site d root r :=
  h.here.of_evolves hb.left (fun _ hw => hw.1) (fun _ t hw => hw.2 t) fun p hp => (h.apart p hp).1

theorem hosts' : Hosts site d' root' r' :=
  h.there.of_evolves hb.right (fun _ hw => hw.1) (fun p t hw => h.same p hw.1 ▸ hw.2 t) fun p hp => (h.apart p hp).2

end Twins

end Disk

open Disk (Twins Beside Discreet)
open Disk.Action (Alike)

variable {C : Place → Prop} {site : Place → Option Entry} {d d' d₀ d₀' : Disk} {root root' file : Text} {r r' : Place}

/-- Where a file's path does not tell the places apart the file is read alike. -/
theorem Site.read_twins {locked : Text → Bool} {size : Nat} (h : Twins C site root root' r r' d₀ d₀')
    (hb : Beside C d₀ d₀' d d') (hd : Discreet site d₀ d₀' r r' file) (hf : Path.isAbsolute file = false) :
    read ⟨root', size⟩ locked d' file = read ⟨root, size⟩ locked d file := by
  have hh := h.hosts hb
  have hh' := h.hosts' hb
  have hlinks := hb.sameLinks
  have hlinks' := h.sameLinks' hb
  by_cases hi : file = SourceKey.inline
  · simp only [read, locate, if_pos hi]
  cases hd with
  | stays hs => exact read_relocated hh hh' hs hf
  | leaves hp hout hp' hout' =>
    rw [← Disk.resolve_congr hlinks] at hp
    rw [← Disk.resolve_congr hlinks'] at hp'
    simp only [read, locate, if_neg hi, hh.resolve, hh'.resolve, hp, hp', hout, hout', Bool.not_false, if_true]
  | unnamed hp hp' =>
    rw [← Disk.resolve_congr hlinks] at hp
    rw [← Disk.resolve_congr hlinks'] at hp'
    simp only [read, locate, if_neg hi, hh.resolve, hh'.resolve, hp, hp']

namespace Service

variable {p : Deployment} {w : Faults} {report : Report}

/-- The same deployment with its site at another place. -/
def Deployment.rootedAt (p : Deployment) (root : Text) : Deployment :=
  { p with generation := { p.generation with site := { p.generation.site with root } } }

/-- No path of a file in a report tells the places apart. -/
def IsDiscreet (site : Place → Option Entry) (d d' : Disk) (r r' : Place) (report : Report) : Prop :=
  ∀ e ∈ report.entries, ∀ file, SourceKey.ofReference e.1 = .ok file → file ≠ SourceKey.inline →
    Discreet site d d' r r' file

theorem save_alike (h : Twins C site p.generation.site.root root' r r' d₀ d₀') (hs : Ledger.Shared C d₀ p.ledgerFile)
    (hr : IsDiscreet site d₀ d₀' r r' report) :
    Alike (Beside C d₀ d₀') (save p w report) (save (p.rootedAt root') w report) := by
  refine .bind (Ledger.transaction_alike hs fun l d d' hb => ?_) fun m => .pure m.1
  have hm : Ledger.merge (p.rootedAt root').generation.site w.locked d' l report =
      Ledger.merge p.generation.site w.locked d l report :=
    Ledger.Merge.run_of_read (fun e he file hf hi =>
      Site.read_twins h hb (hr e he file hf hi) (SourceKey.isRelative_of_ofReference hf)) _
  simp only [hm]

end Service

namespace Server

variable {s : Setup} {w : Faults} {moment : Text} {q : Request} {st st' : State}

/-- The same server with its site at another place. -/
def Setup.rootedAt (s : Setup) (root : Text) : Setup := { s with deployment := s.deployment.rootedAt root }

/-- A request does not ask for stylesheets to be written, and no path of a file in it tells the places apart. -/
def Request.IsDiscreet (site : Place → Option Entry) (d d' : Disk) (r r' : Place) (q : Request) : Prop :=
  q.action ≠ "generate" ∧ ∀ report, reportOfBody q.body = .ok report → Service.IsDiscreet site d d' r r' report

/-- States of the two servers: what was counted is the same. -/
structure InStep (C : Place → Prop) (d₀ d₀' : Disk) (st st' : State) : Prop where
  hits : st'.hits = st.hits
  disks : Beside C d₀ d₀' st.disk st'.disk

section

variable (h : Twins C site s.deployment.generation.site.root root' r r' d₀ d₀')
  (hs : Ledger.Shared C d₀ s.deployment.ledgerFile) (hq : q.IsDiscreet site d₀ d₀' r r')
include h hs hq

theorem serve_twins (w : Faults) (moment : Text) (hb : Beside C d₀ d₀' d d') :
    (serve (s.rootedAt root') w moment q d').1 = (serve s w moment q d).1 ∧
    Beside C d₀ d₀' (serve s w moment q d).2 (serve (s.rootedAt root') w moment q d').2 := by
  have hmax : (s.rootedAt root').maxBody = s.maxBody := rfl
  simp only [serve, hmax]
  by_cases hsize : s.maxBody < q.body.length
  · simp only [if_pos hsize]
    exact ⟨trivial, hb⟩
  by_cases hdeep : isTooDeep q.body = true
  · simp only [if_neg hsize, if_pos hdeep]
    exact ⟨trivial, hb⟩
  simp only [if_neg hsize, if_neg hdeep]
  cases hreport : reportOfBody q.body with
  | error f => exact ⟨rfl, hb⟩
  | ok report =>
    dsimp only
    by_cases ha : q.action = "save"
    · simp only [if_pos ha]
      obtain ⟨hsame, hb'⟩ := Service.save_alike (w := w) h hs (hq.2 report hreport) d d' hb
      exact ⟨congrArg Outcome.ofSave hsame, hb'⟩
    · simp only [if_neg ha, if_neg hq.1]
      exact ⟨trivial, hb⟩

theorem handle_twins (w : Faults) (moment : Text) (hst : InStep C d₀ d₀' st st') :
    (handle (s.rootedAt root') w moment q st').1 = (handle s w moment q st).1 ∧
      InStep C d₀ d₀' (handle s w moment q st).2 (handle (s.rootedAt root') w moment q st').2 := by
  have hhops : (s.rootedAt root').hops = s.hops := rfl
  have hlimited : (s.rootedAt root').isLimited = s.isLimited := rfl
  have hq' : (q.behind s.hops).IsDiscreet site d₀ d₀' r r' := hq
  simp only [handle, hhops]
  cases Route.of? (q.behind s.hops).path with
  | none => exact ⟨rfl, hst⟩
  | some route =>
    suffices (respond (s.rootedAt root') w moment route (q.behind s.hops) st').1 =
        (respond s w moment route (q.behind s.hops) st).1 ∧
        InStep C d₀ d₀' (respond s w moment route (q.behind s.hops) st).2
          (respond (s.rootedAt root') w moment route (q.behind s.hops) st').2 from
      ⟨congrArg (Response.of (some route) (q.behind s.hops)) this.1, this.2⟩
    generalize q.behind s.hops = q at hq'
    obtain ⟨hsame, hb⟩ := serve_twins h hs hq' w moment hst.disks
    simp only [respond, hlimited, hst.hits]
    by_cases hmethod : (!route.methods.contains q.method) = true
    · simp only [if_pos hmethod]
      exact ⟨trivial, hst⟩
    by_cases hoptions : q.method = "OPTIONS"
    · simp only [if_neg hmethod, if_pos hoptions]
      exact ⟨trivial, hst⟩
    simp only [if_neg hmethod, if_neg hoptions]
    cases route with
    | assets => exact ⟨rfl, hst⟩
    | reports =>
      generalize (if s.isLimited = true then _ else (true, st.hits) : Bool × Hits) = a
      dsimp only
      by_cases ha : (!a.1) = true
      · simp only [if_pos ha]
        exact ⟨trivial, rfl, hst.disks⟩
      · simp only [if_neg ha]
        exact ⟨hsame, rfl, hb⟩

end

/-- The responses to requests that come one after another, each with what its surroundings do to it. -/
def handleAll (s : Setup) (st : State) : List (Faults × Text × Request) → List Response
  | [] => []
  | c :: cs =>
    let a := handle s c.1 c.2.1 c.2.2 st
    a.1 :: handleAll s a.2 cs

/-- Requests that do not ask for stylesheets to be written get the same responses wherever the site is, as long as no
path of a file leads off the site and back to it. -/
theorem handleAll_twins (h : Twins C site s.deployment.generation.site.root root' r r' d₀ d₀')
    (hs : Ledger.Shared C d₀ s.deployment.ledgerFile) (hits : Hits) (cs : List (Faults × Text × Request))
    (hcs : ∀ c ∈ cs, c.2.2.IsDiscreet site d₀ d₀' r r') :
    handleAll (s.rootedAt root') ⟨hits, d₀'⟩ cs = handleAll s ⟨hits, d₀⟩ cs := by
  suffices ∀ st st', InStep C d₀ d₀' st st' → handleAll (s.rootedAt root') st' cs = handleAll s st cs from
    this _ _ ⟨rfl, h.beside⟩
  induction cs with
  | nil => exact fun _ _ _ => rfl
  | cons c cs ih =>
    intro st st' hst
    obtain ⟨hc, hcs⟩ := List.forall_mem_cons.1 hcs
    obtain ⟨hsame, hst'⟩ := handle_twins h hs hc c.1 c.2.1 hst
    exact List.cons_eq_cons.2 ⟨hsame, ih hcs _ _ hst'⟩


theorem serve_of_report {report : Report} (hsize : q.body.length ≤ s.maxBody) (hdeep : isTooDeep q.body = false)
    (hreport : reportOfBody q.body = .ok report) (ha : q.action = "save") : serve s w moment q d =
      (.ofSave (Service.save s.deployment w report d).1, (Service.save s.deployment w report d).2) := by
  simp only [serve, if_neg (Nat.not_lt.2 hsize), hdeep, hreport, if_pos ha, Bool.false_eq_true, if_false]

/-- The response to a request that a report be kept says what became of the report. -/
theorem handle_of_report {report : Report} (hp : q.path = "/remove-unused-css") (hm : q.method = "POST")
    (hl : s.isLimited = false) (hsize : q.body.length ≤ s.maxBody) (hdeep : isTooDeep q.body = false)
    (hreport : reportOfBody q.body = .ok report) (ha : q.action = "save") : (handle s w moment q st).1 =
      .of (some .reports) (q.behind s.hops) (.ofSave (Service.save s.deployment w report st.disk).1) := by
  have hserve : serve s w moment (q.behind s.hops) st.disk = _ := serve_of_report hsize hdeep hreport ha
  have hp' : (q.behind s.hops).path = "/remove-unused-css" := hp
  have hm' : (q.behind s.hops).method = "POST" := hm
  have hroute : Route.of? (q.behind s.hops).path = some .reports := by rw [hp']; decide
  have hpost : (!Route.reports.methods.contains (q.behind s.hops).method) = false := by rw [hm']; decide
  have hplain : (q.behind s.hops).method ≠ "OPTIONS" := by rw [hm']; decide
  simp only [handle, hroute, respond, hpost, if_neg hplain, hl, hserve, Bool.false_eq_true, if_false, Bool.not_true]

/-- A body is read as what its text says. -/
theorem report_of_text {body : Bytes} {text : Text} {v : Json} {report : Report} (hd : Encoding.detect body = (.utf8, body))
    (ht : Utf8.decodeLenient? body = some text) (hv : Json.parse text = .ok v) (hr : Report.ofJson v = .ok report) :
    isTooDeep body = false ∧ reportOfBody body = .ok report := by
  have hdecode : Encoding.decodeDetected? body = some text := by rw [Encoding.decodeDetected?, hd, Encoding.decode?, ht]
  constructor
  · rw [isTooDeep, hdecode, Option.map_some, hv]
  · rw [reportOfBody, hdecode, Option.bind_some, hv]
    exact hr

/-- A name right below the root of a disk is put there by way of common places. -/
theorem open_root {n : Text} (hd : Disk.Unlinked d) (hn : Text.splitOn '/' ('/' :: n) = [[], n])
    (hown : Disk.isOwnName n = true) (hroot : C []) (hc : C [n]) : Disk.Open C d ('/' :: n) where
  within := by
    rw [Disk.Within, hn]
    exact ⟨[n], .stay hroot (.inl rfl) (.down hroot hown (hd _) (.here hc))⟩
  way p hp := by
    have hsplit : Text.splitOn '/' ('/' :: n) = [[]] ++ [n] := hn
    have hway : Disk.wayTo ('/' :: n) = [] := (Disk.wayTo_eq hsplit (by decide) hown).1
    obtain rfl : p = [] := by rwa [hway, List.prefix_nil] at hp
    exact ⟨[], .stay hroot (.inl rfl) (.stay hroot (.inl rfl) (.here hroot))⟩
  unlinked _ t _ := hd _ t

/-- A site of one empty stylesheet. -/
def emptySheet : Place → Option Entry := fun p =>
  if p = [] then some .directory else if p = [("a.css" : Text)] then some (.file [] 0) else none

/-- The site below the root of a disk. -/
def emptyHere : Disk := ⟨Table.ofList [([("s" : Text)], .directory), ([("s" : Text), "a.css"], .file [] 0)]⟩

/-- The site further down, and under another name. -/
def emptyThere : Disk := ⟨Table.ofList [([("t" : Text)], .directory), ([("t" : Text), "u"], .directory),
  ([("t" : Text), "u", "a.css"], .file [] 0)]⟩

/-- Where the ledger and its lock are put. -/
def IsLedgerPlace (p : Place) : Prop := p ∈ [[], [("l" : Text)], [("l.lock" : Text)]]

theorem entry?_emptyHere (p : Place) : emptyHere.entry? p = if p = [] then some .directory
    else if p = [("s" : Text), "a.css"] then some (.file [] 0)
    else if p = [("s" : Text)] then some .directory else none := by
  simp only [Disk.entry?, emptyHere, Table.ofList, List.foldl, Table.get?_insert, Table.get?_empty]

theorem entry?_emptyThere (p : Place) : emptyThere.entry? p = if p = [] then some .directory
    else if p = [("t" : Text), "u", "a.css"] then some (.file [] 0)
    else if p = [("t" : Text), "u"] then some .directory
    else if p = [("t" : Text)] then some .directory else none := by
  simp only [Disk.entry?, emptyThere, Table.ofList, List.foldl, Table.get?_insert, Table.get?_empty]

theorem unlinked_emptyHere : Disk.Unlinked emptyHere := fun p t => by
  rw [entry?_emptyHere]
  split_ifs <;> simp

theorem unlinked_emptyThere : Disk.Unlinked emptyThere := fun p t => by
  rw [entry?_emptyThere]
  split_ifs <;> simp

theorem hosts_emptyHere : Disk.Hosts emptySheet emptyHere "/s" [("s" : Text)] where
  resolve := unlinked_emptyHere.resolve (by decide)
  directory p hp := by
    have hp := (List.mem_inits p _).2 hp
    simp only [List.inits, List.map, List.mem_cons, List.not_mem_nil, or_false] at hp
    rcases hp with rfl | rfl <;> rfl
  named := by decide
  entry p := by
    by_cases hp : p = [] <;> simp [entry?_emptyHere, emptySheet, hp]

theorem hosts_emptyThere : Disk.Hosts emptySheet emptyThere "/t/u" [("t" : Text), "u"] where
  resolve := unlinked_emptyThere.resolve (by decide)
  directory p hp := by
    have hp := (List.mem_inits p _).2 hp
    simp only [List.inits, List.map, List.mem_cons, List.not_mem_nil, or_false] at hp
    rcases hp with rfl | rfl | rfl <;> rfl
  named := by decide
  entry p := by
    by_cases hp : p = [] <;> simp [entry?_emptyThere, emptySheet, hp]

theorem twins_empty :
    Twins IsLedgerPlace emptySheet "/s" "/t/u" [("s" : Text)] [("t" : Text), "u"] emptyHere emptyThere where
  here := hosts_emptyHere
  there := hosts_emptyThere
  same := by
    simp only [IsLedgerPlace, List.forall_mem_cons]
    exact ⟨rfl, rfl, rfl, nofun⟩
  apart := by
    simp only [IsLedgerPlace, List.forall_mem_cons]
    decide

theorem shared_empty : Ledger.Shared IsLedgerPlace emptyHere "/l" where
  ledger := open_root (n := "l") unlinked_emptyHere (by decide) (by decide) (by simp [IsLedgerPlace])
    (by simp [IsLedgerPlace])
  lock := open_root (n := "l.lock") unlinked_emptyHere (by decide) (by decide) (by simp [IsLedgerPlace])
    (by simp [IsLedgerPlace])

/-- A request that a report be kept. -/
def keep (body : String) : Request := ⟨"POST", "/remove-unused-css", [], body.toUTF8.toList, "c", "http"⟩

theorem action_keep (body : String) : (keep body).action = "save" := rfl

/-- One path stays on the site, the other one leaves it. -/
def stayAndLeave : Request := keep "\x7b\"../b\":[],\"a.css\":[]\x7d"

theorem report_stayAndLeave : isTooDeep stayAndLeave.body = false ∧
    reportOfBody stayAndLeave.body = .ok (Table.ofList [("../b", []), ("a.css", [])]) := by
  have hd : Encoding.detect stayAndLeave.body = (.utf8, stayAndLeave.body) := by
    have hb : stayAndLeave.body = [0x7b, 0x22, 0x2e, 0x2e] ++ stayAndLeave.body.drop 4 := by cbv
    rw [hb]
    rfl
  have ht : Utf8.decodeLenient? stayAndLeave.body = some ("\x7b\"../b\":[],\"a.css\":[]\x7d" : Text) := by cbv
  have hv : Json.parse "\x7b\"../b\":[],\"a.css\":[]\x7d" = .ok (.object [("../b", .array []), ("a.css", .array [])]) := by
    cbv
  exact report_of_text hd ht hv rfl

theorem discreet_up : Discreet emptySheet emptyHere emptyThere [("s" : Text)] [("t" : Text), "u"] "../b" := by
  have hhere : emptyHere.resolve (Path.join (Disk.pathOf [("s" : Text)]) "../b") = .ok [("b" : Text)] := by cbv
  have hthere : emptyThere.resolve (Path.join (Disk.pathOf [("t" : Text), "u"]) "../b") = .ok [("t" : Text), "b"] := by
    cbv
  exact .leaves hhere (by decide) hthere (by decide)

theorem discreet_sheet : Discreet emptySheet emptyHere emptyThere [("s" : Text)] [("t" : Text), "u"] "a.css" := by
  have hsheet (t : Text) : emptySheet [("a.css" : Text)] ≠ some (.link t) := by simp [emptySheet]
  exact .stays (.settled (.down (by decide) (by decide) hsheet .here))

theorem isDiscreet_stayAndLeave :
    stayAndLeave.IsDiscreet emptySheet emptyHere emptyThere [("s" : Text)] [("t" : Text), "u"] := by
  refine ⟨by rw [stayAndLeave, action_keep]; decide, fun report hreport => ?_⟩
  obtain rfl := Except.ok.inj (report_stayAndLeave.2.symm.trans hreport)
  have hentries : (Table.ofList [(("../b" : Text), ([] : List (Text × Option Text))), ("a.css", [])]).entries =
      [(("../b" : Text), []), ("a.css", [])] := rfl
  rw [Service.IsDiscreet, hentries, List.forall_mem_cons, List.forall_mem_singleton]
  refine ⟨fun file hfile _ => ?_, fun file hfile _ => ?_⟩
  · have hkey : SourceKey.ofReference "../b" = .ok "../b" := rfl
    exact Except.ok.inj (hkey.symm.trans hfile) ▸ discreet_up
  · have hkey : SourceKey.ofReference "a.css" = .ok "a.css" := rfl
    exact Except.ok.inj (hkey.symm.trans hfile) ▸ discreet_sheet

/-- The server answers alike, wherever the site is, to a request in which one path stays on it and one leaves it. -/
theorem handleAll_twins_empty :
    handleAll (besideSetup.rootedAt "/t/u") ⟨[], emptyThere⟩ [(Faults.none, [], stayAndLeave)] =
      handleAll besideSetup ⟨[], emptyHere⟩ [(Faults.none, [], stayAndLeave)] :=
  handleAll_twins (s := besideSetup) twins_empty shared_empty [] _ (by simpa using isDiscreet_stayAndLeave)

/-- A path that leads off the site and back to it where the site is named as the path says, and only off it elsewhere. -/
def backAgain : Request := keep "\x7b\"../s/a.css\":[]\x7d"

theorem report_backAgain : isTooDeep backAgain.body = false ∧
    reportOfBody backAgain.body = .ok (Table.ofList [("../s/a.css", [])]) := by
  have hd : Encoding.detect backAgain.body = (.utf8, backAgain.body) := by
    have hb : backAgain.body = [0x7b, 0x22, 0x2e, 0x2e] ++ backAgain.body.drop 4 := by cbv
    rw [hb]
    rfl
  have ht : Utf8.decodeLenient? backAgain.body = some ("\x7b\"../s/a.css\":[]\x7d" : Text) := by cbv
  have hv : Json.parse "\x7b\"../s/a.css\":[]\x7d" = .ok (.object [("../s/a.css", .array [])]) := by cbv
  exact report_of_text hd ht hv rfl

theorem save_emptyHere : (Service.save besideSetup.deployment Faults.none (Table.ofList [("../s/a.css", [])]) emptyHere).1 =
    .ok ⟨["../s/a.css"], []⟩ := by cbv

theorem save_emptyThere : (Service.save (besideSetup.rootedAt "/t/u").deployment Faults.none
    (Table.ofList [("../s/a.css", [])]) emptyThere).1 = .ok ⟨["../s/a.css"],
      ["Could not initialize selectors for ../s/a.css: Path outside document root: ../s/a.css"]⟩ := by cbv

theorem handle_backAgain (root : Text) (d : Disk) : (handle (besideSetup.rootedAt root) Faults.none [] backAgain ⟨[], d⟩).1 =
    .of (some .reports) (backAgain.behind 0) (.ofSave (Service.save (besideSetup.rootedAt root).deployment Faults.none
      (Table.ofList [("../s/a.css", [])]) d).1) := by
  have hp : backAgain.path = "/remove-unused-css" := by cbv
  have hsize : backAgain.body.length = 17 := by cbv
  have hfits : backAgain.body.length ≤ 100 := by omega
  exact handle_of_report hp rfl rfl hfits report_backAgain.1 report_backAgain.2 rfl

/-- One site at two places, and nothing else on the disks but the directories above it: the response to a request that
a report be kept tells what the site's directory is called. -/
theorem not_alike_backAgain :
    Twins IsLedgerPlace emptySheet "/s" "/t/u" [("s" : Text)] [("t" : Text), "u"] emptyHere emptyThere ∧
    Ledger.Shared IsLedgerPlace emptyHere "/l" ∧
    (∀ p, ¬ [("s" : Text)] <+: p → emptyHere.entry? p ≠ none → p = []) ∧
    (∀ p, ¬ [("t" : Text), "u"] <+: p → emptyThere.entry? p ≠ none → p <+: [("t" : Text), "u"]) ∧
    backAgain.action = "save" ∧
    (handle (besideSetup.rootedAt "/t/u") Faults.none [] backAgain ⟨[], emptyThere⟩).1.body ≠
      (handle besideSetup Faults.none [] backAgain ⟨[], emptyHere⟩).1.body := by
  refine ⟨twins_empty, shared_empty, fun p hp he => ?_, fun p hp he => ?_, rfl, fun hbody => ?_⟩
  · rw [entry?_emptyHere] at he
    split_ifs at he <;> subst_vars
    · rfl
    · exact absurd (by decide) hp
    · exact absurd (by decide) hp
    · exact absurd rfl he
  · rw [entry?_emptyThere] at he
    split_ifs at he <;> subst_vars
    · decide
    · exact absurd (by decide) hp
    · decide
    · decide
    · exact absurd rfl he
  · have hhere : (handle besideSetup Faults.none [] backAgain ⟨[], emptyHere⟩).1 = _ := handle_backAgain "/s" emptyHere
    have hsave : (Service.save (besideSetup.rootedAt "/s").deployment Faults.none (Table.ofList [("../s/a.css", [])])
      emptyHere).1 = _ := save_emptyHere
    have hmethod : (backAgain.behind 0).method ≠ "HEAD" := by decide
    rw [hhere, hsave, handle_backAgain, save_emptyThere] at hbody
    simp only [Response.of, if_neg hmethod] at hbody
    simp [Outcome.ofSave, Outcome.body?, texts] at hbody

end Server
end StylePrune
