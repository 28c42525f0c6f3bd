import StylePrune.Ledger.Store
import StylePrune.Proofs.Disk.Straight
import StylePrune.Proofs.Json

/-!
The ledger in its file. What is saved loads again as the ledger that was saved, and a change under the lock puts the
new ledger in place of the old one as a whole or leaves the old one there.
-/

set_option autoImplicit false

namespace StylePrune.Ledger

open Disk (Action Straight Evolves Enlarges Inherits)

/-! ## Documents -/

theorem readsBack_toJson (l : Ledger) : Json.ReadsBack 2 0 l.toJson := by
  refine Json.readsBack_object ?_ fun e he => ?_
  · rw [List.map_map]
    exact l.nodup
  · obtain ⟨f, -, rfl⟩ := List.mem_map.1 he
    refine Json.readsBack_object ?_ fun e he => ?_
    · rw [List.map_map]
      exact f.2.nodup
    · obtain ⟨s, -, rfl⟩ := List.mem_map.1 he
      exact Json.readsBack_string _ _ _

theorem statusesOfJson?_map (es : List (Text × Status)) :
    statusesOfJson? (es.map fun s => (s.1, .string s.2.name)) = some es := by
  induction es with
  | nil => rfl
  | cons e es ih => simp [statusesOfJson?, statusOfJson?, Json.string?, ih]

theorem filesOfJson?_map {α : Type} (f : α → Text) (g : α → List (Text × Json)) (es : List α) :
    filesOfJson? (es.map fun e => (f e, .object (g e))) = some (es.map fun e => (f e, g e)) := by
  induction es with
  | nil => rfl
  | cons e es ih => simp [filesOfJson?, Json.fields?, ih]

theorem entriesOfFields?_map (es : List (Text × Statuses)) :
    entriesOfFields? (es.map fun e => (e.1, e.2.entries.map fun s => (s.1, .string s.2.name))) = some es := by
  induction es with
  | nil => rfl
  | cons e es ih => simp [entriesOfFields?, statusesOfJson?_map, ih, Table.ofList_entries]

theorem ofJson_toJson (l : Ledger) : ofJson l.toJson = .ok l := by
  simp only [ofJson, toJson, Json.fields?, Option.bind_some, filesOfJson?_map, entriesOfFields?_map,
    Table.ofList_entries]

/-- The bytes that are saved for a ledger hold that ledger. -/
theorem ofBytes_of_encode? {l : Ledger} {bs : Bytes} (h : Utf8.encode? l.toJson.render = some bs) :
    ofBytes bs = .ok l := by
  simp only [ofBytes, Utf8.decode?_of_encode? h, Option.map_some, 
    Json.parse_render (readsBack_toJson l) (by decide), ofJson_toJson]

/-! ## The file -/

section

variable {d d' : Disk} {path : Text} {dir p q : Place} {name : Text}

theorem load_eq (path : Text) (d : Disk) : load path d = match d.entryAt? path with
    | none => .ok Table.empty
    | some (.file content _) => ofBytes content
    | some _ => .error .unreadable := by
  unfold load Disk.exists? Disk.open? Disk.entryAt?
  cases d.find path with
  | error e => rfl
  | ok p =>
    cases he : d.entry? p with
    | none => simp [he]
    | some e => cases e <;> simp [he]

/-- What was saved for a ledger is loaded as that ledger. -/
theorem load_of_encode? {l : Ledger} {content : Bytes} {modified : Int}
    (hc : Utf8.encode? l.toJson.render = some content) (he : d.entryAt? path = some (.file content modified)) :
    load path d = .ok l := by
  rw [load_eq, he]
  exact ofBytes_of_encode? hc

theorem lock_enlarges (path : Text) (d : Disk) : Enlarges d (lock path d).2 :=
  Action.Keeps.bind_of (I := Enlarges d) (Disk.makeDirectories_enlarges _ d) fun _ d₁ _ h =>
    h.trans (Disk.touchFile_enlarges _ d₁)

/-- The place of the lock. -/
def lockPlace (dir : Place) (name : Text) : Place := dir ++ [name ++ ".lock"]

theorem isOwnName_lock (name : Text) : Disk.isOwnName (name ++ ".lock") = true := by
  have hl : 5 ≤ (name ++ (".lock" : Text)).length := by simp
  have hne (t : Text) (ht : t.length < 5) : name ++ (".lock" : Text) ≠ t := by
    intro h
    rw [h] at hl
    omega
  simp [Disk.isOwnName, hne [] (by decide), hne "." (by decide), hne ".." (by decide)]

theorem lockPlace_ne (dir : Place) (name : Text) : dir ++ [name] ≠ lockPlace dir name := by
  intro h
  have hn := List.append_cancel_left h
  have := congrArg List.length (List.singleton_inj.1 hn)
  simp at this

/-- A ledger's path that can only lead to its place, and no link at the place of its lock. -/
structure Kept (d : Disk) (path : Text) (dir : Place) (name : Text) : Prop where
  straight : Straight d path dir name
  lockUnlinked : ∀ t, d.entry? (lockPlace dir name) ≠ some (.link t)

namespace Kept

variable (hk : Kept d path dir name)
include hk

theorem lock_straight : Straight d (lockPath path) dir (name ++ ".lock") :=
  hk.straight.sibling (by decide) (isOwnName_lock name) hk.lockUnlinked

theorem of_enlarges (he : Enlarges d d') : Kept d' path dir name :=
  ⟨hk.straight.of_enlarges he, fun t ht => hk.lockUnlinked t (he.link _ t ht)⟩

theorem lock_evolves : Evolves (· <+: dir) (· = lockPlace dir name) d (lock path d).2 := by
  have hm := hk.lock_straight.makeDirectories_evolves
  have h : Enlarges d (lock path d).2 ∧ Evolves (· <+: dir) (· = lockPlace dir name) d (lock path d).2 :=
    Action.Keeps.bind_of (I := fun d' => Enlarges d d' ∧ Evolves (· <+: dir) (· = lockPlace dir name) d d')
      ⟨hm.enlarges, hm.mono (fun _ => id) fun _ => False.elim⟩ fun _ d₁ _ h => by
        have hs := hk.lock_straight.of_enlarges h.1
        refine ⟨h.1.trans (Disk.touchFile_enlarges _ d₁), h.2.trans (Disk.touchFile_evolves fun p hp => ?_)⟩
        refine hs.of_target (Disk.target_of_writeTarget hp fun q t hq => ?_)
        rw [hs.of_target hq]
        exact hs.ne_link t
  exact h.2

end Kept

/-- The place at which the ledger is put: something is found at the path, or nothing is there yet and no link is on
the way to it below the directories that are there. -/
inductive Seat (d : Disk) (path : Text) (q : Place) : Prop where
  | there {e : Entry} (he : d.entryAt? path = some e) (ht : d.target path = .ok q)
  | free {dir : Place} {name : Text} (hk : Kept d path dir name) (he : d.entry? (dir ++ [name]) = none)
      (hq : q = dir ++ [name])

namespace Seat

variable (hs : Seat d path q)
include hs

/-- Directories that come do no harm, nor does a lock. -/
theorem advance (hd : Enlarges d d')
    (hfree : ∀ {dir name}, Kept d path dir name → Evolves (· <+: dir) (· = lockPlace dir name) d d') :
    Seat d' path q ∧ d'.entryAt? path = d.entryAt? path := by
  cases hs with
  | there he ht =>
    have he' := hd.grows.entryAt?_eq_some he
    exact ⟨.there he' (hd.grows.target ht), he'.trans he.symm⟩
  | @free dir name hk he hq =>
    have he' : d'.entry? (dir ++ [name]) = none := by
      rw [(hfree hk).entry?_eq ?_ (lockPlace_ne dir name), he]
      intro hp
      have := hp.length_le
      rw [List.length_append, List.length_singleton] at this
      omega
    have hk' := hk.of_enlarges hd
    exact ⟨.free hk' he' hq, (hk'.straight.entryAt?_eq_none he').trans (hk.straight.entryAt?_eq_none he).symm⟩

theorem lock : Seat (lock path d).2 path q ∧ (Ledger.lock path d).2.entryAt? path = d.entryAt? path :=
  hs.advance (lock_enlarges path d) fun hk => hk.lock_evolves

theorem makeDirectories : let d' := (Disk.makeDirectories (Path.names (Path.normalize path)).dropLast d).2
    Seat d' path q ∧ d'.entryAt? path = d.entryAt? path :=
  hs.advance (Disk.makeDirectories_enlarges _ d) fun hk =>
    hk.straight.makeDirectories_evolves.mono (fun _ => id) fun _ => False.elim

/-- A file that is put at the path, unless a directory is found there, is what is found there. -/
theorem set (hn : d.entryAt? path ≠ some .directory) (ht : d.target path = .ok p)
    (hp : d.entry? p ≠ some .directory) (content : Bytes) : Seat (d.set p (.file content 0)) path q ∧
      (d.set p (.file content 0)).find path = .ok q ∧
      Disk.entry? (d.set p (.file content 0)) q = some (.file content 0) := by
  have hentry : Disk.entry? (d.set p (.file content 0)) p = some (.file content 0) := by
    rw [Disk.entry?_set (Disk.ne_nil_of_target ht), if_pos rfl]
  suffices p = q ∧ (d.set p (.file content 0)).target path = .ok q ∧ (d.set p (.file content 0)).find path = .ok q by
    obtain ⟨rfl, htarget, hfind⟩ := this
    exact ⟨.there (Disk.entryAt?_eq_some_iff.2 ⟨p, hfind, hentry⟩) htarget, hfind, hentry⟩
  cases hs with
  | there he ht' =>
    obtain rfl := Except.ok.inj (ht.symm.trans ht')
    obtain ⟨r, hr, he⟩ := Disk.entryAt?_eq_some_iff.1 he
    exact ⟨rfl, Disk.find_set_of_target ht hr (fun hd => hn (Disk.entryAt?_eq_some_iff.2 ⟨r, hr, hd⟩)) hp content 0⟩
  | free hk he hq =>
    obtain rfl : p = q := (hk.straight.of_target ht).trans hq.symm
    have hd : Enlarges d (d.set p (.file content 0)) := Disk.enlarges_set (Disk.ne_nil_of_target ht) (hq ▸ he)
    have ht' := hd.grows.target ht
    exact ⟨rfl, ht', Disk.find_of_target ht' hentry (by simp)⟩

theorem target_eq_ok {e : Entry} (he : d.entryAt? path = some e) : d.target path = .ok q := by
  cases hs with
  | there _ ht => exact ht
  | free hk hn => simp [hk.straight.entryAt?_eq_none hn] at he

/-- What is found at the place itself stays there while files come elsewhere, as long as none comes upon a link. -/
theorem of_evolves {made written : Place → Prop} (h : Evolves made written d d')
    (hl : ∀ p t, written p → d.entry? p ≠ some (.link t)) {e : Entry} (hf : d.find path = .ok q)
    (he : d.entry? q = some e) (hq : ¬ written q) : Seat d' path q ∧ d'.entryAt? path = some e := by
  have ht := hs.target_eq_ok (Disk.entryAt?_eq_some_iff.2 ⟨q, hf, he⟩)
  have he' := Disk.entryAt?_eq_some_iff.2 ⟨q, h.find_eq_ok hl hf, h.entry?_of_some hq he⟩
  exact ⟨.there he' (h.inherits.later.target (fun p t hp => h.entry?_of_some (fun hw => hl p t hw hp) hp) ht), he'⟩

/-- A save that fails leaves what is at the path; one that succeeds puts the ledger's bytes there. -/
theorem save_cases {l : Ledger} {refuse : Bool} {r : Except StoreError Unit}
    (hn : d.entryAt? path ≠ some .directory) (h : save path l refuse d = (r, d')) : Inherits d d' ∧ Seat d' path q ∧
      ((∃ e, r = .error e) ∧ d'.entryAt? path = d.entryAt? path ∨ r = .ok () ∧ d'.find path = .ok q ∧
        ∃ content, Utf8.encode? l.toJson.render = some content ∧ d'.entry? q = some (.file content 0)) := by
  obtain ⟨hseat, hentry⟩ := hs.makeDirectories
  obtain ⟨r₀, h₀, hr⟩ : ∃ r₀, Disk.replaceFile path l.toJson.render refuse d = (r₀, d') ∧
      (r = .ok () ∧ r₀ = .ok () ∨ (∃ e, r = .error e) ∧ ∃ e, r₀ = .error e) := by
    cases r with
    | ok _ => exact ⟨_, Action.mapError_eq_ok h, .inl ⟨rfl, rfl⟩⟩
    | error e =>
      obtain ⟨e₀, h₀, -⟩ := Action.mapError_eq_error h
      exact ⟨_, h₀, .inr ⟨⟨e, rfl⟩, e₀, rfl⟩⟩
  have hi := Disk.replaceFile_inherits path l.toJson.render refuse d
  rw [h₀] at hi
  refine ⟨hi, ?_⟩
  obtain ⟨d₁, rfl, ⟨⟨e, rfl⟩, rfl⟩ | ⟨rfl, p, content, ht, hp, hc, rfl⟩⟩ := Disk.replaceFile_cases h₀
  · obtain ⟨-, hr⟩ | ⟨hr, -⟩ := hr
    · cases hr
    · exact ⟨hseat, .inl ⟨hr, hentry⟩⟩
  · obtain ⟨hr, -⟩ | ⟨-, _, hr⟩ := hr
    · obtain ⟨hseat', hfind, hput⟩ := hseat.set (hentry ▸ hn) ht hp content
      exact ⟨hseat', .inr ⟨hr, hfind, content, hc, hput⟩⟩
    · cases hr

/-- A change of the ledger that fails leaves what is at its path; one that succeeds puts there what it made of the
ledger as it was before. -/
theorem transaction_cases {ε α : Type} {wrap : StoreError → ε} {refuse : Bool}
    {change : Ledger → Disk → Except ε (Ledger × α)} {r : Except ε α}
    (h : transaction wrap path refuse change d = (r, d')) : Inherits d d' ∧ Seat d' path q ∧
      ((∃ e, r = .error e ∧ ((∃ s, e = wrap s) ∨ ∃ l, change l (Ledger.lock path d).2 = .error e)) ∧
          d'.entryAt? path = d.entryAt? path ∨
        ∃ a l l' content, r = .ok a ∧ load path d = .ok l ∧ change l (Ledger.lock path d).2 = .ok (l', a) ∧
          Utf8.encode? l'.toJson.render = some content ∧ d'.find path = .ok q ∧
          d'.entry? q = some (.file content 0)) := by
  obtain ⟨hseat, hentry⟩ := hs.lock
  have hi := (lock_enlarges path d).inherits
  have hload : load path (Ledger.lock path d).2 = load path d := by rw [load_eq, load_eq, hentry]
  have notDirectory {l : Ledger} (hl : load path (Ledger.lock path d).2 = .ok l) :
      (Ledger.lock path d).2.entryAt? path ≠ some .directory := by
    intro hd
    simp [load_eq, hd] at hl
  cases r with
  | error e =>
    rcases Action.bind_eq_error h with h₁ | ⟨_, d₁, hl, h₁⟩
    · obtain ⟨s, h₁, he⟩ := Action.mapError_eq_error h₁
      rw [h₁] at hi hseat hentry
      exact ⟨hi, hseat, .inl ⟨⟨e, rfl, .inl ⟨s, he.symm⟩⟩, hentry⟩⟩
    obtain rfl : (Ledger.lock path d).2 = d₁ := by rw [Action.mapError_eq_ok hl]
    rcases Action.bind_eq_error h₁ with h₂ | ⟨l, d₂, hask, h₂⟩
    · obtain ⟨c, h₂, he⟩ := Action.mapError_eq_error h₂
      obtain ⟨-, rfl⟩ := Prod.mk.inj h₂
      exact ⟨hi, hseat, .inl ⟨⟨e, rfl, .inl ⟨.corrupt c, he.symm⟩⟩, hentry⟩⟩
    obtain ⟨hl, rfl⟩ := Action.ask_eq_ok (Action.mapError_eq_ok hask)
    rcases Action.bind_eq_error h₂ with h₃ | ⟨x, d₃, hchange, h₃⟩
    · obtain ⟨he, rfl⟩ := Prod.mk.inj h₃
      exact ⟨hi, hseat, .inl ⟨⟨e, rfl, .inr ⟨l, he⟩⟩, hentry⟩⟩
    obtain ⟨-, rfl⟩ := Action.ask_eq_ok hchange
    rcases Action.bind_eq_error h₃ with h₄ | ⟨_, _, -, h₄⟩
    · obtain ⟨s, h₄, he⟩ := Action.mapError_eq_error h₄
      obtain ⟨hi', hseat', ⟨-, hentry'⟩ | ⟨hok, -⟩⟩ := hseat.save_cases (notDirectory hl) h₄
      · exact ⟨hi.trans hi', hseat', .inl ⟨⟨e, rfl, .inl ⟨s, he.symm⟩⟩, hentry'.trans hentry⟩⟩
      · cases hok
    · cases (Prod.mk.inj h₄).1
  | ok a =>
    obtain ⟨_, d₁, hl, h₁⟩ := Action.bind_eq_ok h
    obtain rfl : (Ledger.lock path d).2 = d₁ := by rw [Action.mapError_eq_ok hl]
    obtain ⟨l, d₂, hask, h₂⟩ := Action.bind_eq_ok h₁
    obtain ⟨hl, rfl⟩ := Action.ask_eq_ok (Action.mapError_eq_ok hask)
    obtain ⟨⟨l', x⟩, d₃, hchange, h₃⟩ := Action.bind_eq_ok h₂
    obtain ⟨hc', rfl⟩ := Action.ask_eq_ok hchange
    obtain ⟨_, d₄, hsave, h₄⟩ := Action.bind_eq_ok h₃
    obtain ⟨ha, rfl⟩ := Prod.mk.inj h₄
    obtain rfl := Except.ok.inj ha
    obtain ⟨hi', hseat', ⟨⟨_, he⟩, -⟩ | ⟨-, hfind, content, hc, hput⟩⟩ :=
      hseat.save_cases (notDirectory hl) (Action.mapError_eq_ok hsave)
    · cases he
    · exact ⟨hi.trans hi', hseat', .inr ⟨x, l, l', content, rfl, hload ▸ hl, hc', hc, hfind, hput⟩⟩

end Seat

end

end StylePrune.Ledger
