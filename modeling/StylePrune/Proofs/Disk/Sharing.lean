import StylePrune.Proofs.Disk.Repeating
import StylePrune.Proofs.Ledger.Stored

/-!
Two disks that have some places in common. An action whose paths lead over such places only does the same on both: it
ends alike, and leaves disks that have the same places in common. What else is on the disks does not matter.
-/

set_option autoImplicit false

namespace StylePrune

namespace Disk

namespace Action

variable {ε ε' α β : Type} {I : Disk → Disk → Prop} {a a' : Action ε α} {f f' : α → Action ε β} {g g' : Disk → Except ε α}

/-- Two actions end alike on disks that are related, and leave related disks. -/
def Alike (I : Disk → Disk → Prop) (a a' : Action ε α) : Prop :=
  ∀ d d', I d d' → (a' d').1 = (a d).1 ∧ I (a d).2 (a' d').2

namespace Alike

theorem pure (x : α) : Alike I (pure x : Action ε α) (pure x) := fun _ _ h => ⟨rfl, h⟩

theorem mapError (ha : Alike I a a') (g : ε → ε') : Alike I (a.mapError g) (a'.mapError g) := fun d d' h => by
  obtain ⟨hr, hI⟩ := ha d d' h
  exact ⟨by rw [Action.mapError, Action.mapError, hr], hI⟩

theorem ask (hg : ∀ d d', I d d' → g' d' = g d) : Alike I (ask g) (ask g') := fun d d' h => ⟨hg d d' h, h⟩

theorem bind (ha : Alike I a a') (hf : ∀ x, Alike I (f x) (f' x)) : Alike I (a >>= f) (a' >>= f') := by
  intro d d' h
  obtain ⟨hr, hI⟩ := ha d d' h
  cases hd : a d with
  | mk r d₁ =>
    cases hd' : a' d' with
    | mk r' d₁' =>
      rw [hd, hd'] at hr hI
      obtain rfl : r' = r := hr
      cases r' with
      | ok x =>
        rw [bind_of_ok hd, bind_of_ok hd']
        exact hf x d₁ d₁' hI
      | error e =>
        rw [bind_of_error hd, bind_of_error hd']
        exact ⟨rfl, hI⟩

end Alike

end Action

open Disk.Action (Alike)

variable {C : Place → Prop} {d₀ d₀' d d' : Disk} {links : Nat} {a b p q : Place} {n path text : Text}
  {ns ms : List Text}

/-- Names lead from one place to another, as far as they lead anywhere, and every place that is looked at on the way is
a common one. -/
inductive Passes (C : Place → Prop) (d : Disk) : Place → List Text → Place → Prop
  | here {a : Place} (ha : C a) : Passes C d a [] a
  | stay {a p : Place} {n : Text} {ns : List Text} (ha : C a) (hn : n = [] ∨ n = ".") (h : Passes C d a ns p) :
      Passes C d a (n :: ns) p
  | up {a p : Place} {ns : List Text} (ha : C a) (h : Passes C d a.dropLast ns p) : Passes C d a (".." :: ns) p
  | link {a p : Place} {n t : Text} {ns : List Text} (ha : C a) (hn : isOwnName n = true) (hc : C (a ++ [n]))
      (he : d.entry? (a ++ [n]) = some (.link t))
      (h : Passes C d (if Path.isAbsolute t then [] else a) (Text.splitOn '/' t ++ ns) p) : Passes C d a (n :: ns) p
  | down {a p : Place} {n : Text} {ns : List Text} (ha : C a) (hn : isOwnName n = true)
      (hl : ∀ t, d.entry? (a ++ [n]) ≠ some (.link t)) (h : Passes C d (a ++ [n]) ns p) : Passes C d a (n :: ns) p

namespace Passes

theorem start (h : Passes C d a ns p) : C a := by
  cases h with
  | here ha | stay ha | up ha | link ha | down ha => exact ha

theorem common (h : Passes C d a ns p) : C p := by
  induction h with
  | here ha => exact ha
  | stay _ _ _ ih | up _ _ ih | link _ _ _ _ _ ih | down _ _ _ _ ih => exact ih

theorem exists_of_append (h : Passes C d a (ns ++ ms) p) : ∃ b, Passes C d a ns b ∧ Passes C d b ms p := by
  generalize hl : ns ++ ms = l at h
  induction h generalizing ns with
  | here ha =>
    obtain ⟨rfl, rfl⟩ := List.append_eq_nil_iff.1 hl
    exact ⟨_, .here ha, .here ha⟩
  | stay ha hn h ih =>
    rcases List.append_eq_cons_iff.1 hl with ⟨rfl, rfl⟩ | ⟨ns, rfl, rfl⟩
    · exact ⟨_, .here ha, .stay ha hn h⟩
    · obtain ⟨b, hb, hb'⟩ := ih rfl
      exact ⟨b, .stay ha hn hb, hb'⟩
  | up ha h ih =>
    rcases List.append_eq_cons_iff.1 hl with ⟨rfl, rfl⟩ | ⟨ns, rfl, rfl⟩
    · exact ⟨_, .here ha, .up ha h⟩
    · obtain ⟨b, hb, hb'⟩ := ih rfl
      exact ⟨b, .up ha hb, hb'⟩
  | link ha hn hc he h ih =>
    rcases List.append_eq_cons_iff.1 hl with ⟨rfl, rfl⟩ | ⟨ns, rfl, rfl⟩
    · exact ⟨_, .here ha, .link ha hn hc he h⟩
    · obtain ⟨b, hb, hb'⟩ := ih (List.append_assoc ..)
      exact ⟨b, .link ha hn hc he hb, hb'⟩
  | down ha hn hl' h ih =>
    rcases List.append_eq_cons_iff.1 hl with ⟨rfl, rfl⟩ | ⟨ns, rfl, rfl⟩
    · exact ⟨_, .here ha, .down ha hn hl' h⟩
    · obtain ⟨b, hb, hb'⟩ := ih rfl
      exact ⟨b, .down ha hn hl' hb, hb'⟩

theorem append (h : Passes C d a ns b) (h' : Passes C d b ms p) : Passes C d a (ns ++ ms) p := by
  induction h with
  | here => exact h'
  | stay ha hn _ ih => exact .stay ha hn (ih h')
  | up ha _ ih => exact .up ha (ih h')
  | link ha hn hc he _ ih => exact .link ha hn hc he (by simpa using ih h')
  | down ha hn hl _ ih => exact .down ha hn hl (ih h')

theorem replicate_nil (ha : C a) (i : Nat) : Passes C d a (List.replicate i []) a := by
  induction i with
  | zero => exact .here ha
  | succ i ih => exact .stay ha (.inl rfl) ih

theorem eq_of_replicate_nil {i : Nat} (h : Passes C d a (List.replicate i []) p) : p = a := by
  induction i with
  | zero => cases h; rfl
  | succ i ih =>
    cases h with
    | stay _ _ h => exact ih h
    | link _ hn | down _ hn => exact absurd hn (by decide)

end Passes

/-- A path on which every place that is looked at is a common one. -/
def Within (C : Place → Prop) (d : Disk) (path : Text) : Prop := ∃ p, Passes C d [] (Text.splitOn '/' path) p

/-- The directory of a path, in which something may be put under the last name. -/
theorem Within.exists_split (h : Within C d path) : ∃ b p, Passes C d [] (Text.splitOn '/' (Path.split path).1) b ∧
    Passes C d b [(Path.split path).2] p := by
  obtain ⟨p, hp⟩ := h
  obtain ⟨ns, i, j, hpath, hdir⟩ := Path.exists_split path
  rw [hpath] at hp
  obtain ⟨b, hb, hlast⟩ := hp.exists_of_append
  obtain ⟨b', hb', hi⟩ := hb.exists_of_append
  obtain rfl := hi.eq_of_replicate_nil
  refine ⟨b, p, ?_, hlast⟩
  rw [hdir]
  exact hb'.append (.replicate_nil hb'.common j)

/-- Two disks after what was done on them at the places that they have in common. Elsewhere each is as it was, and no
file has come upon a link. -/
structure Beside (C : Place → Prop) (d₀ d₀' d d' : Disk) : Prop where
  same : ∀ p, C p → d'.entry? p = d.entry? p
  left : Evolves C (fun p => C p ∧ ∀ t, d₀.entry? p ≠ some (.link t)) d₀ d
  right : Evolves C (fun p => C p ∧ ∀ t, d₀.entry? p ≠ some (.link t)) d₀' d'

namespace Beside

theorem sameLinks (h : Beside C d₀ d₀' d d') : SameLinks d₀ d := h.left.sameLinks fun _ t hw => hw.2 t

/-- On the way through common places both disks are the same. -/
theorem follow (h : Beside C d₀ d₀' d d') (hp : Passes C d₀ a ns p) (links : Nat) :
    d'.follow links a ns = d.follow links a ns ∧ ∀ q, d.follow links a ns = .ok q → q = p := by
  induction hp generalizing links with
  | here =>
    rw [Disk.follow, Disk.follow]
    exact ⟨rfl, fun q hq => (Except.ok.inj hq).symm⟩
  | @stay a p n ns ha hn _ ih =>
    rw [Disk.follow, Disk.follow, h.same a ha]
    by_cases hd : d.entry? a ≠ some .directory
    · simp only [if_pos hd]
      exact ⟨trivial, nofun⟩
    · simp only [if_neg hd, if_pos hn]
      exact ih links
  | @up a p ns ha _ ih =>
    rw [Disk.follow, Disk.follow, h.same a ha]
    by_cases hd : d.entry? a ≠ some .directory
    · simp only [if_pos hd]
      exact ⟨trivial, nofun⟩
    · have hup : ¬ ((".." : Text) = [] ∨ (".." : Text) = ".") := by decide
      simp only [if_neg hd, if_neg hup, if_true]
      exact ih links
  | @link a p n t ns ha hn hc he _ ih =>
    obtain ⟨hstay, hup⟩ := isOwnName_iff.1 hn
    have he' := (h.sameLinks _ t).2 he
    rw [Disk.follow, Disk.follow, h.same a ha]
    by_cases hd : d.entry? a ≠ some .directory
    · simp only [if_pos hd]
      exact ⟨trivial, nofun⟩
    by_cases hs : maxName < Text.utf8Size n
    · simp only [if_neg hd, if_neg hstay, if_neg hup, if_pos hs]
      exact ⟨trivial, nofun⟩
    simp only [if_neg hd, if_neg hstay, if_neg hup, if_neg hs, h.same _ hc, he']
    cases links with
    | zero => exact ⟨rfl, nofun⟩
    | succ links => exact ih links
  | @down a p n ns ha hn hl hrest ih =>
    obtain ⟨hstay, hup⟩ := isOwnName_iff.1 hn
    rw [Disk.follow, Disk.follow, h.same a ha]
    by_cases hd : d.entry? a ≠ some .directory
    · simp only [if_pos hd]
      exact ⟨trivial, nofun⟩
    by_cases hs : maxName < Text.utf8Size n
    · simp only [if_neg hd, if_neg hstay, if_neg hup, if_pos hs]
      exact ⟨trivial, nofun⟩
    simp only [if_neg hd, if_neg hstay, if_neg hup, if_neg hs, h.same _ hrest.start]
    cases he : d.entry? (a ++ [n]) with
    | none => exact ⟨rfl, nofun⟩
    | some e =>
      cases e with
      | link t => exact absurd ((h.sameLinks _ t).1 he) (hl t)
      | file content modified => exact ih links
      | directory => exact ih links

theorem find (h : Beside C d₀ d₀' d d') (hw : Within C d₀ path) : d'.find path = d.find path := by
  obtain ⟨p, hp⟩ := hw
  exact (h.follow hp maxLinks).1

theorem entryAt? (h : Beside C d₀ d₀' d d') (hw : Within C d₀ path) : d'.entryAt? path = d.entryAt? path := by
  unfold Disk.entryAt?
  rw [h.find hw]
  obtain ⟨p, hp⟩ := hw
  cases hq : d.find path with
  | error e => rfl
  | ok q =>
    obtain rfl := (h.follow hp maxLinks).2 q hq
    exact h.same q hp.common

theorem target (h : Beside C d₀ d₀' d d') (hw : Within C d₀ path) : d'.target path = d.target path ∧
    ∀ q, d.target path = .ok q → C q := by
  obtain ⟨b, p, hb, hp⟩ := hw.exists_split
  obtain ⟨hfind, hunique⟩ := h.follow hb maxLinks
  refine ⟨?_, fun q hq => ?_⟩
  · simp only [Disk.target, Disk.find, hfind]
    cases hq : d.follow maxLinks [] (Text.splitOn '/' (Path.split path).1) with
    | error e => rfl
    | ok q =>
      obtain rfl := hunique q hq
      simp only [h.same q hp.start]
  · obtain ⟨dir, hdir, -, hn, rfl⟩ := target_eq_ok hq
    obtain rfl := hunique dir hdir
    generalize (Path.split path).2 = n at hp hn
    cases hp with
    | stay _ hn' => exact absurd hn' (isOwnName_iff.1 hn).1
    | up => exact absurd rfl (isOwnName_iff.1 hn).2
    | link _ _ hc => exact hc
    | down _ _ _ h => exact h.start

/-- The same entry comes to a common place on both disks. -/
theorem set (h : Beside C d₀ d₀' d d') {e : Entry} (hn : p ≠ []) (hc : C p)
    (he : d.entry? p = none ∧ e = .directory ∨
      (∀ t, d₀.entry? p ≠ some (.link t)) ∧ d.entry? p ≠ some .directory ∧ ∃ content modified, e = .file content modified) :
    Beside C d₀ d₀' (d.set p e) (d'.set p e) := by
  have he' := he
  rw [← h.same p hc] at he'
  refine ⟨fun q hq => ?_, h.left.trans (Evolves.set hn ?_), h.right.trans (Evolves.set hn ?_)⟩
  · rw [entry?_set hn, entry?_set hn, h.same q hq]
  · exact he.imp (fun h => ⟨hc, h⟩) fun h => ⟨⟨hc, h.1⟩, h.2⟩
  · exact he'.imp (fun h => ⟨hc, h⟩) fun h => ⟨⟨hc, h.1⟩, h.2⟩

end Beside

theorem mkdir_alike (hw : Within C d₀ path) : Alike (Beside C d₀ d₀') (mkdir path) (mkdir path) := by
  intro d d' h
  obtain ⟨ht, hcommon⟩ := h.target hw
  unfold mkdir
  rw [ht]
  cases hp : d.target path with
  | error e => exact ⟨rfl, h⟩
  | ok p =>
    have hc := hcommon p hp
    by_cases hn : (d.entry? p).isSome = true
    · simp only [h.same p hc, if_pos hn]
      exact ⟨trivial, h⟩
    · simp only [h.same p hc, if_neg hn]
      exact ⟨trivial, h.set (ne_nil_of_target hp) hc (.inl ⟨by simpa using hn, rfl⟩)⟩

theorem makeLast_alike (hw : Within C d₀ (pathOf p)) : Alike (Beside C d₀ d₀') (makeLast p) (makeLast p) := by
  intro d d' h
  obtain ⟨hr, hb⟩ := mkdir_alike hw d d' h
  unfold makeLast
  cases hd : mkdir (pathOf p) d with
  | mk r d₁ =>
    cases hd' : mkdir (pathOf p) d' with
    | mk r' d₁' =>
      rw [hd, hd'] at hr hb
      obtain rfl : r' = r := hr
      cases r' with
      | ok _ => exact ⟨rfl, hb⟩
      | error e =>
        have hsame : d₁'.isDirectory (pathOf p) = d₁.isDirectory (pathOf p) := by
          rw [isDirectory, isDirectory, hb.entryAt? hw]
        by_cases hdir : d₁.isDirectory (pathOf p) = true
        · simp only [hsame, if_pos hdir]
          exact ⟨trivial, hb⟩
        · simp only [hsame, if_neg hdir]
          exact ⟨trivial, hb⟩

theorem makeDirectories_alike (hw : ∀ q, q <+: p → Within C d₀ (pathOf q)) :
    Alike (Beside C d₀ d₀') (makeDirectories p) (makeDirectories p) := by
  induction p using List.reverseRecOn with
  | nil =>
    intro d d' h
    rw [makeDirectories, dif_pos rfl, makeDirectories, dif_pos rfl]
    exact ⟨rfl, h⟩
  | append_singleton p n ih =>
    have hparent (q : Place) (hq : q <+: p) : Within C d₀ (pathOf q) := hw q (hq.trans (List.prefix_append p [n]))
    rw [makeDirectories_concat]
    refine Alike.bind (fun d d' h => ?_) fun _ => makeLast_alike (hw _ (List.prefix_refl _))
    obtain ⟨hr, hb⟩ := ih hparent d d' h
    have hsame : d'.exists? (pathOf p) = d.exists? (pathOf p) := by
      rw [exists?, exists?, h.entryAt? (hparent p (List.prefix_refl p))]
    unfold makeWay
    by_cases hex : d.exists? (pathOf p) = true
    · simp only [hsame, if_pos hex]
      exact ⟨trivial, h⟩
    · simp only [hsame, if_neg hex]
      cases hd : makeDirectories p d with
      | mk r d₁ =>
        cases hd' : makeDirectories p d' with
        | mk r' d₁' =>
          rw [hd, hd'] at hr hb
          obtain rfl : r' = r := hr
          cases r' with
          | ok _ => exact ⟨rfl, hb⟩
          | error e => cases e <;> exact ⟨rfl, hb⟩

/-- A path by which a file may be put at a common place: on the way to it, and where directories are made for it, every
place that is looked at is a common one, and at its end there is no link. -/
structure Open (C : Place → Prop) (d : Disk) (path : Text) : Prop where
  within : Within C d path
  way : ∀ q, q <+: wayTo path → Within C d (pathOf q)
  unlinked : ∀ b t, Passes C d [] (Text.splitOn '/' (Path.split path).1) b →
    d.entry? (b ++ [(Path.split path).2]) ≠ some (.link t)

theorem Beside.target_open (h : Beside C d₀ d₀' d d') (ho : Open C d₀ path) (hp : d.target path = .ok p) :
    C p ∧ ∀ t, d₀.entry? p ≠ some (.link t) := by
  refine ⟨(h.target ho.within).2 p hp, fun t => ?_⟩
  obtain ⟨b, _, hb, -⟩ := ho.within.exists_split
  obtain ⟨dir, hdir, -, -, rfl⟩ := target_eq_ok hp
  obtain rfl := (h.follow hb maxLinks).2 dir hdir
  exact ho.unlinked dir t hb

theorem writeTarget_of_target (hl : ∀ p t, d.target path = .ok p → d.entry? p ≠ some (.link t)) :
    d.writeTarget links path = match d.target path with
      | .error e => .error e
      | .ok p => if d.entry? p = some .directory then .error .isDirectory else .ok p := by
  rw [writeTarget.eq_def]
  cases hp : d.target path with
  | error e => rfl
  | ok p =>
    cases he : d.entry? p with
    | none => simp [he]
    | some e =>
      cases e with
      | link t => exact absurd he (hl p t hp)
      | file content modified => simp [he]
      | directory => simp [he]

theorem touchFile_alike (ho : Open C d₀ path) : Alike (Beside C d₀ d₀') (touchFile path) (touchFile path) := by
  intro d d' h
  have hlink (p : Place) (t : Text) (hp : d.target path = .ok p) : d.entry? p ≠ some (.link t) :=
    fun he => (h.target_open ho hp).2 t ((h.sameLinks p t).1 he)
  have htarget := (h.target ho.within).1
  have hsame (p : Place) (hp : d.target path = .ok p) : d'.entry? p = d.entry? p :=
    h.same p (h.target_open ho hp).1
  have hlink' (p : Place) (t : Text) (hp : d'.target path = .ok p) : d'.entry? p ≠ some (.link t) := by
    rw [htarget] at hp
    rw [hsame p hp]
    exact hlink p t hp
  simp only [touchFile, writeTarget_of_target hlink, writeTarget_of_target hlink', htarget]
  cases hp : d.target path with
  | error e => exact ⟨rfl, h⟩
  | ok p =>
    simp only [hsame p hp]
    by_cases hd : d.entry? p = some .directory
    · simp only [if_pos hd]
      exact ⟨trivial, h⟩
    · simp only [if_neg hd]
      refine ⟨trivial, ?_⟩
      obtain ⟨hc, hl⟩ := h.target_open ho hp
      by_cases he : (d.entry? p).isSome = true
      · simp only [hsame p hp, if_pos he]
        exact h
      · simp only [hsame p hp, if_neg he]
        exact h.set (ne_nil_of_target hp) hc (.inr ⟨hl, hd, [], 0, rfl⟩)

theorem replaceFile_alike (ho : Open C d₀ path) (text : Text) (refuse : Bool) :
    Alike (Beside C d₀ d₀') (replaceFile path text refuse) (replaceFile path text refuse) := by
  refine Alike.bind ((makeDirectories_alike ho.way).mapError WriteError.errno) fun _ d d' h => ?_
  have hfind : d'.find (pathOf (Path.names (Path.normalize path)).dropLast) =
      d.find (pathOf (Path.names (Path.normalize path)).dropLast) := h.find (ho.way _ (List.prefix_refl _))
  simp only [hfind, (h.target ho.within).1]
  cases d.find (pathOf (Path.names (Path.normalize path)).dropLast) with
  | error e => exact ⟨rfl, h⟩
  | ok dir =>
    cases Utf8.encode? text with
    | none => exact ⟨rfl, h⟩
    | some content =>
      by_cases hr : refuse = true
      · simp only [if_pos hr]
        exact ⟨trivial, h⟩
      · simp only [if_neg hr]
        cases hp : d.target path with
        | error e => exact ⟨rfl, h⟩
        | ok p =>
          obtain ⟨hc, hl⟩ := h.target_open ho hp
          have hput (he : d.entry? p ≠ some .directory) :
              Beside C d₀ d₀' (d.set p (.file content 0)) (d'.set p (.file content 0)) :=
            h.set (ne_nil_of_target hp) hc (.inr ⟨hl, he, content, 0, rfl⟩)
          simp only [h.same p hc]
          cases he : d.entry? p with
          | none => exact ⟨rfl, hput (by simp [he])⟩
          | some e =>
            cases e with
            | directory => exact ⟨rfl, h⟩
            | link t => exact ⟨rfl, hput (by simp [he])⟩
            | file c m => exact ⟨rfl, hput (by simp [he])⟩

end Disk

namespace Ledger

open Disk (Beside Open)
open Disk.Action (Alike)

variable {C : Place → Prop} {d₀ d₀' d d' : Disk} {path : Text} {ε α : Type}

theorem load_alike (h : Beside C d₀ d₀' d d') (hw : Disk.Within C d₀ path) : load path d' = load path d := by
  rw [load_eq, load_eq, h.entryAt? hw]

/-- The ledger and its lock are put at common places, by way of common places. -/
structure Shared (C : Place → Prop) (d : Disk) (path : Text) : Prop where
  ledger : Open C d path
  lock : Open C d (lockPath path)

variable (hs : Shared C d₀ path)
include hs

theorem lock_alike : Alike (Beside C d₀ d₀') (lock path) (lock path) :=
  .bind ((Disk.makeDirectories_alike hs.lock.way).mapError StoreError.notLocked) fun _ =>
    (Disk.touchFile_alike hs.lock).mapError StoreError.notLocked

/-- Changes of a ledger that agree end alike, and leave the same ledger, on disks that have its places in common. -/
theorem transaction_alike {wrap : StoreError → ε} {refuse : Bool} {change change' : Ledger → Disk → Except ε (Ledger × α)}
    (hc : ∀ l d d', Beside C d₀ d₀' d d' → change' l d' = change l d) :
    Alike (Beside C d₀ d₀') (transaction wrap path refuse change) (transaction wrap path refuse change') :=
  .bind ((lock_alike hs).mapError wrap) fun _ =>
    .bind ((Alike.ask fun _ _ h => load_alike h hs.ledger.within).mapError (wrap ∘ .corrupt)) fun before =>
      .bind (.ask fun d d' h => hc before d d' h) fun r =>
        .bind (((Disk.replaceFile_alike hs.ledger _ refuse).mapError _).mapError wrap) fun _ => .pure r.2

end Ledger
end StylePrune
