import StylePrune.Proofs.Service
import StylePrune.Server.Endpoint

/-!
What a request leaves on disk, by its answer. A request that is refused changes nothing at all. One that is served
merges its report into the ledger as a whole or leaves the ledger's file alone, and the answer tells which it was.
-/

set_option autoImplicit false

namespace StylePrune.Server

open Ledger (Seat)

variable {s : Setup} {w : Faults} {moment : Text} {r : Request} {d d' : Disk} {st st' : State} {o : Outcome}
  {route : Route} {q : Place}

/-- Is this a request to take a report? -/
def Request.IsReport (r : Request) : Prop := Route.of? r.path = some .reports ∧ r.method = "POST"

/-- After a request the ledger's file holds the ledger as it was before, with the report in the request's body merged
into it. -/
def HoldsMerged (s : Setup) (w : Faults) (r : Request) (d d' : Disk) : Prop :=
  ∃ report, reportOfBody r.body = .ok report ∧ Service.HoldsMerged s.deployment w report d d'

/-- After a request the ledger's file is as it was, be it that there is none. -/
def Untouched (s : Setup) (d d' : Disk) : Prop :=
  d'.entryAt? s.deployment.ledgerFile = d.entryAt? s.deployment.ledgerFile

theorem status_ofSave (r : Except Service.Error Service.Merged) :
    (Outcome.ofSave r).status = 200 ∧ (∃ m, r = .ok m) ∨ (Outcome.ofSave r).status = 500 ∧ ∃ e, r = .error e := by
  cases r with
  | ok m => exact .inl ⟨rfl, m, rfl⟩
  | error e => exact .inr ⟨rfl, e, rfl⟩

theorem status_ofGenerate (r : Except Service.Error (Service.Merged × Generation.Result)) :
    (Outcome.ofGenerate r).status = 500 ∨
      ((Outcome.ofGenerate r).status = 200 ∨ (Outcome.ofGenerate r).status = 504) ∧
        ((∃ a, r = .ok a) ∨ ∃ x, r = .error (.run x)) := by
  unfold Outcome.ofGenerate
  split
  · exact .inr ⟨.inl rfl, .inl ⟨_, rfl⟩⟩
  · exact .inr ⟨.inr rfl, .inr ⟨_, rfl⟩⟩
  · exact .inl rfl

/-- A request is refused, or its body not read, before anything is done, or its report is given to one of the two
services. -/
theorem serve_cases (h : serve s w moment r d = (o, d')) :
    (o.status = 400 ∨ o.status = 413 ∨ o.status = 500) ∧ d' = d ∨
    ∃ report, reportOfBody r.body = .ok report ∧
      (r.action = "save" ∧ (Outcome.ofSave (Service.save s.deployment w report d).1 = o ∧
          (Service.save s.deployment w report d).2 = d') ∨
        r.action = "generate" ∧ (Outcome.ofGenerate (Service.generate s.deployment w moment report d).1 = o ∧
          (Service.generate s.deployment w moment report d).2 = d')) := by
  unfold serve at h
  split at h
  · obtain ⟨rfl, rfl⟩ := Prod.mk.inj h
    exact .inl ⟨.inr (.inl rfl), rfl⟩
  split at h
  · obtain ⟨rfl, rfl⟩ := Prod.mk.inj h
    exact .inl ⟨.inr (.inr rfl), rfl⟩
  split at h
  · obtain ⟨rfl, rfl⟩ := Prod.mk.inj h
    exact .inl ⟨.inl rfl, rfl⟩
  rename_i report hreport
  split at h
  · rename_i ha
    exact .inr ⟨report, hreport, .inl ⟨ha, Prod.mk.inj h⟩⟩
  split at h
  · rename_i ha
    exact .inr ⟨report, hreport, .inr ⟨ha, Prod.mk.inj h⟩⟩
  · obtain ⟨rfl, rfl⟩ := Prod.mk.inj h
    exact .inl ⟨.inl rfl, rfl⟩

/-- What is found at fault with a request stops it before anything is done. -/
theorem disk_of_serve (h : serve s w moment r d = (o, d')) (ho : 400 ≤ o.status ∧ o.status < 500) : d' = d := by
  obtain ⟨-, hd⟩ | ⟨report, -, ⟨-, rfl, -⟩ | ⟨-, rfl, -⟩⟩ := serve_cases h
  · exact hd
  · rcases status_ofSave (Service.save s.deployment w report d).1 with ⟨hs, -⟩ | ⟨hs, -⟩ <;> omega
  · rcases status_ofGenerate (Service.generate s.deployment w moment report d).1 with hs | ⟨hs | hs, -⟩ <;> omega

theorem serve_save (hs : Seat d s.deployment.ledgerFile q) (ha : r.action = "save")
    (h : serve s w moment r d = (o, d')) :
    o.status = 200 ∧ HoldsMerged s w r d d' ∨ o.status ≠ 200 ∧ Untouched s d d' := by
  obtain ⟨ho, rfl⟩ | ⟨report, hreport, ⟨-, rfl, rfl⟩ | ⟨ha', -⟩⟩ := serve_cases h
  · exact .inr ⟨by omega, rfl⟩
  · obtain ⟨-, -, ⟨⟨e, he⟩, hentry⟩ | ⟨⟨m, hm⟩, hmerged⟩⟩ :=
      Service.save_cases hs (Prod.eta (Service.save s.deployment w report d)).symm
    · exact .inr ⟨by simp [he, Outcome.ofSave, Outcome.status], hentry⟩
    · exact .inl ⟨by rw [hm]; rfl, report, hreport, hmerged⟩
  · exact absurd (ha.symm.trans ha') (by decide)

theorem serve_generate {m : Backup.Moment} (hs : Service.Apart s.deployment d q) (ha : r.action = "generate")
    (h : serve s w m.stamp r d = (o, d')) :
    HoldsMerged s w r d d' ∨ (o.status ≠ 200 ∧ o.status ≠ 504) ∧ Untouched s d d' := by
  obtain ⟨ho, rfl⟩ | ⟨report, hreport, ⟨ha', -⟩ | ⟨-, rfl, rfl⟩⟩ := serve_cases h
  · exact .inr ⟨by omega, rfl⟩
  · exact absurd (ha.symm.trans ha') (by decide)
  · obtain ⟨-, -, ⟨⟨e, he, hne⟩, hentry⟩ | ⟨-, hmerged⟩⟩ := Service.generate_cases hs
      (Disk.Inherits.refl d) hs.seat m.descends_stamp (Prod.eta (Service.generate s.deployment w m.stamp report d)).symm
    · refine .inr ⟨?_, hentry⟩
      rcases status_ofGenerate (Service.generate s.deployment w m.stamp report d).1 with h500 | ⟨-, ⟨a, hok⟩ | ⟨x, hx⟩⟩
      · omega
      · simp [he] at hok
      · exact absurd (Except.error.inj (he.symm.trans hx)) (hne x)
    · exact .inl ⟨report, hreport, hmerged⟩

theorem respond_cases (h : respond s w moment route r st = (o, st')) :
    serve s w moment r st.disk = (o, st'.disk) ∨
      st'.disk = st.disk ∧ (route = .reports → r.method = "POST" → o.status = 429) := by
  unfold respond at h
  split at h
  · rename_i hm
    obtain ⟨rfl, rfl⟩ := Prod.mk.inj h
    refine .inr ⟨rfl, fun hroute hpost => ?_⟩
    rw [hroute, hpost] at hm
    exact absurd hm (by decide)
  · split at h
    · rename_i ho
      obtain ⟨rfl, rfl⟩ := Prod.mk.inj h
      refine .inr ⟨rfl, fun _ hpost => ?_⟩
      exact absurd (ho.symm.trans hpost) (by decide)
    · cases route with
      | assets =>
        obtain ⟨rfl, rfl⟩ := Prod.mk.inj h
        exact .inr ⟨rfl, fun hroute => absurd hroute (by decide)⟩
      | reports =>
        dsimp only at h
        generalize (if s.isLimited = true then allow r.client (limitsOf (decide (r.action = "generate"))) st.hits
          else (true, st.hits)) = a at h
        split at h
        · obtain ⟨rfl, rfl⟩ := Prod.mk.inj h
          exact .inr ⟨rfl, fun _ _ => rfl⟩
        · obtain ⟨rfl, rfl⟩ := Prod.mk.inj h
          exact .inl rfl

/-- A request that is not served leaves the disk as it is; one that has a report is told that there were too many. -/
theorem handle_cases {res : Response} (h : handle s w moment r st = (res, st')) :
    (∃ o, serve s w moment r st.disk = (o, st'.disk) ∧ res.status = o.status) ∨
      st'.disk = st.disk ∧ (r.IsReport → res.status = 429) := by
  unfold handle at h
  dsimp only at h
  split at h
  · rename_i hroute
    obtain ⟨-, rfl⟩ := Prod.mk.inj h
    refine .inr ⟨rfl, fun hr => ?_⟩
    have hr : Route.of? (r.behind s.hops).path = some .reports := hr.1
    simp [hroute] at hr
  · rename_i route hroute
    cases ho : respond s w moment route (r.behind s.hops) st with
    | mk o st₁ =>
      rw [ho] at h
      obtain ⟨rfl, rfl⟩ := Prod.mk.inj h
      rcases respond_cases ho with hserve | ⟨hd, hmany⟩
      · exact .inl ⟨o, hserve, rfl⟩
      · refine .inr ⟨hd, fun hr => hmany ?_ hr.2⟩
        exact Option.some.inj (hroute.symm.trans hr.1)

/-- A request to which the answer is an error of the client's changes nothing on disk. If there is a place for the
ledger, a report to be kept is in the ledger if and only if the answer says so, and a report to generate from is in
the ledger or the ledger is as it was, as long as the ledger stands apart from what generation writes; it is there if
generation came to an end or ran out of time. -/
theorem handle_atomic {m : Backup.Moment} {res : Response} (h : handle s w m.stamp r st = (res, st')) :
    (400 ≤ res.status ∧ res.status < 500 → st'.disk = st.disk) ∧
      ∀ q, Seat st.disk s.deployment.ledgerFile q → r.IsReport →
        (r.action = "save" → (res.status = 200 → HoldsMerged s w r st.disk st'.disk) ∧
          (res.status ≠ 200 → Untouched s st.disk st'.disk)) ∧
        (r.action = "generate" → Service.Apart s.deployment st.disk q →
          (Untouched s st.disk st'.disk ∨ HoldsMerged s w r st.disk st'.disk) ∧
          (res.status = 200 ∨ res.status = 504 → HoldsMerged s w r st.disk st'.disk)) := by
  rcases handle_cases h with ⟨o, ho, hstatus⟩ | ⟨hdisk, hmany⟩
  · rw [hstatus]
    refine ⟨disk_of_serve ho, fun q hs _ => ⟨fun ha => ?_, fun ha hapart => ?_⟩⟩
    · rcases serve_save hs ha ho with ⟨h200, hmerged⟩ | ⟨h200, hsame⟩
      · exact ⟨fun _ => hmerged, fun hne => absurd h200 hne⟩
      · exact ⟨fun he => absurd he h200, fun _ => hsame⟩
    · rcases serve_generate hapart ha ho with hmerged | ⟨hne, hsame⟩
      · exact ⟨.inr hmerged, fun _ => hmerged⟩
      · exact ⟨.inl hsame, fun he => absurd he (not_or.2 hne)⟩
  · have hsame : Untouched s st.disk st'.disk := by rw [Untouched, hdisk]
    refine ⟨fun _ => hdisk, fun q hs hr => ?_⟩
    rw [hmany hr]
    exact ⟨fun _ => ⟨fun he => absurd he (by decide), fun _ => hsame⟩,
      fun _ _ => ⟨.inl hsame, fun he => absurd he (by decide)⟩⟩

/-- The small site with its ledger beside it, served. -/
def besideSetup : Setup := ⟨Service.beside, 0, 100, false⟩

/-- A page on which the rule is not in use asks for the stylesheets to be written anew. -/
def besideRequest : Request where
  method := "POST"
  target := "/remove-unused-css"
  headers := [("X-Action", "Generate")]
  body := "\x7b\"/a.css\":[]\x7d".toUTF8.toList
  client := "c"
  scheme := "http"

theorem handle_atomic_beside : ∃ res st', handle besideSetup Faults.none (Backup.Moment.stamp ⟨2025, 1, 31, 12, 0, 0⟩)
    besideRequest ⟨[], Service.besideDisk⟩ = (res, st') ∧
    (Untouched besideSetup Service.besideDisk st'.disk ∨
      HoldsMerged besideSetup Faults.none besideRequest Service.besideDisk st'.disk) ∧
    (res.status = 200 ∨ res.status = 504 →
      HoldsMerged besideSetup Faults.none besideRequest Service.besideDisk st'.disk) := by
  have hp : besideRequest.path = "/remove-unused-css" := by cbv
  have hr : besideRequest.IsReport := ⟨by rw [hp]; decide, rfl⟩
  have ha : besideRequest.action = "generate" := by cbv
  cases h : handle besideSetup Faults.none (Backup.Moment.stamp ⟨2025, 1, 31, 12, 0, 0⟩) besideRequest
    ⟨[], Service.besideDisk⟩ with
  | mk res st' =>
    exact ⟨res, st', rfl, ((handle_atomic h).2 ["l"] Service.apart_beside.seat hr).2 ha Service.apart_beside⟩

end StylePrune.Server
