import Mathlib
import StylePrune.Css.Reader
import StylePrune.Proofs.Css.Prune
import StylePrune.Site

/-!
What is known of a stylesheet that could be located and read.
-/

set_option autoImplicit false

namespace StylePrune

theorem Disk.isFile_of_open? {d : Disk} {path : Text} {f : Bytes × Int} (h : d.open? path = .ok f) :
    d.isFile path = true := by
  unfold open? at h
  split at h
  · cases h
  · rename_i p hp
    split at h
    · rename_i he
      simp [isFile, entryAt?, hp, he]
    · cases h
    · cases h

namespace Site

variable {s : Site} {locked : Text → Bool} {d : Disk} {file : Text}

theorem locate_eq_ok {place : Place} (h : locate s d file = .ok place) :
    file ≠ SourceKey.inline ∧ ∃ root, d.resolve s.root = .ok root ∧
      d.resolve (Path.join (Disk.pathOf root) file) = .ok place ∧
      Disk.isBelow root place = true ∧ d.isFile (Disk.pathOf place) = true := by
  unfold locate at h
  split at h
  · cases h
  · rename_i hi
    split at h
    · cases h
    · rename_i root hroot
      split at h
      · cases h
      · rename_i p hp
        by_cases hb : Disk.isBelow root p = true
        · by_cases hf : d.isFile (Disk.pathOf p) = true
          · obtain rfl : p = place := by simpa [hb, hf] using h
            exact ⟨hi, root, hroot, hp, hb, hf⟩
          · simp [hb, hf] at h
        · simp [hb] at h

theorem read_eq_ok {r : Text × Nat} (h : read s locked d file = .ok r) :
    ∃ place bytes modified, locate s d file = .ok place ∧
      d.open? (Disk.pathOf place) = .ok (bytes, modified) ∧ bytes.length ≤ s.maxSize ∧
      locked file = false ∧ r = (Utf8.decodeLossy (Utf8.dropMark bytes), bytes.length) := by
  unfold read at h
  split at h
  · cases h
  · rename_i place hl
    split at h
    · cases h
    · rename_i f ho
      by_cases hs : s.maxSize < f.1.length
      · simp [hs] at h
      · by_cases hk : locked file = true
        · simp [hs, hk] at h
        · simp only [hs, hk, if_false] at h
          exact ⟨place, f.1, f.2, hl, ho, by omega, by simpa using hk, (Except.ok.inj h).symm⟩

theorem locate_of_resolve {root place : Place} {f : Bytes × Int} (hi : file ≠ SourceKey.inline)
    (hroot : d.resolve s.root = .ok root) (hplace : d.resolve (Path.join (Disk.pathOf root) file) = .ok place)
    (hb : Disk.isBelow root place = true) (ho : d.open? (Disk.pathOf place) = .ok f) : locate s d file = .ok place := by
  simp [locate, hi, hroot, hplace, hb, Disk.isFile_of_open? ho]

/-- A file that its name leads to, inside the site and small enough, is read. -/
theorem read_of_resolve {root place : Place} {f : Bytes × Int} (hi : file ≠ SourceKey.inline)
    (hroot : d.resolve s.root = .ok root) (hplace : d.resolve (Path.join (Disk.pathOf root) file) = .ok place)
    (hb : Disk.isBelow root place = true) (ho : d.open? (Disk.pathOf place) = .ok f) (hs : f.1.length ≤ s.maxSize)
    (hk : locked file = false) : read s locked d file = .ok (Utf8.decodeLossy (Utf8.dropMark f.1), f.1.length) := by
  simp [read, locate_of_resolve hi hroot hplace hb ho, ho, hk, Nat.not_lt.2 hs]

/-- A site with one small stylesheet. -/
def small : Site := ⟨"/", defaultMaxSize⟩

def smallDisk : Disk := ⟨Table.ofList [(["a.css"], .file ".y\x7b\x7d".toUTF8.toList 0)]⟩

theorem read_small : read small (fun _ => false) smallDisk "a.css" = .ok (".y\x7b\x7d", 4) := by
  have hroot : smallDisk.resolve small.root = .ok [] := by cbv
  have hplace : smallDisk.resolve (Path.join (Disk.pathOf []) "a.css") = .ok [("a.css" : Text)] := by cbv
  have ho : smallDisk.open? (Disk.pathOf [("a.css" : Text)]) = .ok (".y\x7b\x7d".toUTF8.toList, 0) := by cbv
  rw [read_of_resolve (by decide) hroot hplace (by decide) ho (by cbv) rfl]
  cbv

end Site

namespace Css

/-- The selectors of the small stylesheet. -/
theorem Sheet.selectors_small :
    (Sheet.parse ".y\x7b\x7d").map (·.blocks.map Block.selectors) = .ok [[(".y" : Text)]] := by cbv

end Css
end StylePrune
