import TreeCensus.FileSystem
import Mathlib.Data.List.Basic

/-!
# Keys of objects

The key of an object is the number of its volume, or the name of it, and behind a bar the number that it has
there. The name may hold bars and digits itself. But the last bar of a key is the one between the two, and the
name of a volume is no number: it starts with a slash, or holds a colon. So different objects have different
keys (`identity_eq_iff`).
-/

namespace TreeCensus

set_option autoImplicit false

namespace Text

theorem not_mem_toDigits {c : Char} (hdigit : c.isDigit = false) (n : Nat) : c ∉ Nat.toDigits 10 n := by
  intro h
  exact Bool.noConfusion (hdigit.symm.trans (Nat.isDigit_of_mem_toDigits (by omega) (by omega) h))

theorem not_mem_ofInt {c : Char} (hsign : c ≠ '-') (hdigit : c.isDigit = false) (n : Int) : c ∉ ofInt n := by
  unfold ofInt
  split
  · rw [List.mem_cons, not_or]
    exact ⟨hsign, not_mem_toDigits hdigit _⟩
  · exact not_mem_toDigits hdigit _

theorem toDigits_inj {m n : Nat} (h : Nat.toDigits 10 m = Nat.toDigits 10 n) : m = n := by
  have hread := congrArg (fun digits => Nat.ofDigitChars 10 digits 0) h
  simpa only [Nat.ofDigitChars_ten_toDigits] using hread

/-- A number is read off its text. -/
theorem ofInt_inj {m n : Int} : ofInt m = ofInt n ↔ m = n := by
  refine ⟨fun h => ?_, congrArg ofInt⟩
  unfold ofInt at h
  split at h <;> split at h
  · have := toDigits_inj (List.cons.inj h).2
    omega
  · exact absurd (h ▸ List.mem_cons_self) (not_mem_toDigits rfl n.natAbs)
  · exact absurd (h ▸ List.mem_cons_self) (not_mem_toDigits rfl m.natAbs)
  · have := toDigits_inj h
    omega

/-- Two texts that are put together from two parts have the same parts, if what is between them is not in the
second ones. -/
theorem append_cons_inj {c : Char} {t t' u u' : Text} (hu : c ∉ u) (hu' : c ∉ u') :
    t ++ c :: u = t' ++ c :: u' ↔ t = t' ∧ u = u' := by
  refine ⟨fun h => ?_, fun ⟨ht, hu⟩ => ht ▸ hu ▸ rfl⟩
  rcases List.append_eq_append_iff.mp h with ⟨r, rfl, hr⟩ | ⟨r, rfl, hr⟩ <;> cases r <;> simp_all

end Text

namespace Path

/-- Starts at the top of a file system: with a slash of either kind, or with the letter of a drive. -/
def Anchored (p : Path) : Prop := (∃ c ∈ p.head?, isSlash c = true) ∨ p[1]? = some ':'

instance (p : Path) : Decidable (Anchored p) :=
  decidable_of_iff (p.head?.any isSlash = true ∨ p[1]? = some ':') (or_congr_left (Option.any_eq_true isSlash p.head?))

example : Anchored ['C', ':', '\\', 'd'] ∧ ¬ Anchored ['d', '/', 'C', ':'] := by decide

theorem anchored_of_isAbsolute {p : Path} (hp : isAbsolute p = true) : Anchored p := by
  unfold isAbsolute at hp
  split at hp
  · exact .inl ⟨'/', rfl, rfl⟩
  · cases hp

theorem mem_drive_of_slash {c : Char} (hslash : isSlash c = true) (rest : Path) : c ∈ drive (c :: rest) := by
  simp only [drive, List.take_succ_cons, List.take_zero, List.takeWhile_cons_of_pos hslash]
  split
  · exact List.mem_cons_self
  · exact List.mem_append_left _ List.mem_cons_self

theorem colon_mem_drive {letter : Char} (hletter : isSlash letter = false) (rest : Path) :
    ':' ∈ drive (letter :: ':' :: rest) := by
  have hname : ∃ name, (letter :: ':' :: rest).takeWhile (!isSlash ·) = letter :: ':' :: name :=
    ⟨_, by rw [List.takeWhile_cons_of_pos (by simp [hletter]), List.takeWhile_cons_of_pos rfl]⟩
  obtain ⟨name, hname⟩ := hname
  simp [drive, hletter, hname]

/-- A volume that a path names is not a number. -/
theorem drive_ne_ofInt {p : Path} (hp : Anchored p) (n : Int) : drive p ≠ Text.ofInt n := by
  have hnot : ∀ c, isSlash c = true ∨ c = ':' → c ∉ Text.ofInt n := by
    rintro c (hslash | rfl)
    · simp only [isSlash, Bool.or_eq_true, decide_eq_true_eq] at hslash
      rcases hslash with rfl | rfl <;> exact Text.not_mem_ofInt (by decide) rfl n
    · exact Text.not_mem_ofInt (by decide) rfl n
  intro heq
  cases p with
  | nil => rcases hp with ⟨c, hc, _⟩ | hcolon <;> contradiction
  | cons c rest =>
    by_cases hslash : isSlash c = true
    · exact hnot c (.inl hslash) (heq ▸ mem_drive_of_slash hslash rest)
    · rcases hp with ⟨c', hc', hslash'⟩ | hcolon
      · exact hslash (Option.some.inj hc' ▸ hslash')
      · obtain ⟨rest, rfl⟩ : ∃ rest', rest = ':' :: rest' := by
          cases rest with
          | nil => cases hcolon
          | cons a rest => exact ⟨rest, congrArg (· :: rest) (Option.some.inj hcolon)⟩
        exact hnot ':' (.inr rfl) (heq ▸ colon_mem_drive (Bool.not_eq_true _ ▸ hslash) rest)

end Path

namespace FileInfo

/-- The volume of an object, as its key names it. -/
def volume (i : FileInfo) (path : Path) : Text :=
  if i.device = 0 then Path.drive path else Text.ofInt i.device

theorem volume_eq_iff (i j : FileInfo) {p q : Path} (hp : Path.Anchored p) (hq : Path.Anchored q) :
    i.volume p = j.volume q ↔ i.device ≠ 0 ∧ j.device ≠ 0 ∧ i.device = j.device ∨
      i.device = 0 ∧ j.device = 0 ∧ Path.drive p = Path.drive q := by
  unfold volume
  by_cases hi : i.device = 0 <;> by_cases hj : j.device = 0
  · simp [hi, hj]
  · simp [hi, hj, Path.drive_ne_ofInt hp]
  · simp [hi, hj, (Path.drive_ne_ofInt hq i.device).symm]
  · simp [hi, hj, Text.ofInt_inj]

/-- Two keys are the same if and only if the objects have the same number on the same volume. -/
theorem identity_eq_iff (i j : FileInfo) {p q : Path} (hp : Path.Anchored p) (hq : Path.Anchored q) :
    i.identity p = j.identity q ↔ i.inode = j.inode ∧
      (i.device ≠ 0 ∧ j.device ≠ 0 ∧ i.device = j.device ∨
        i.device = 0 ∧ j.device = 0 ∧ Path.drive p = Path.drive q) := by
  have hbar : ∀ n : Int, '|' ∉ Text.ofInt n := Text.not_mem_ofInt (by decide) rfl
  calc i.identity p = j.identity q
      ↔ i.volume p = j.volume q ∧ Text.ofInt i.inode = Text.ofInt j.inode :=
        Text.append_cons_inj (hbar i.inode) (hbar j.inode)
    _ ↔ i.inode = j.inode ∧ i.volume p = j.volume q := by rw [Text.ofInt_inj, and_comm]
    _ ↔ _ := and_congr_right fun _ => volume_eq_iff i j hp hq

/-- The volume of the first path is named like the whole key of an object on the device 1. -/
theorem identity_ne_of_barred_drive :
    Path.Anchored "/1|7/a".toList ∧ Path.Anchored "/1".toList ∧
      (FileInfo.mk .file 0 0 0 7).identity "/1|7/a".toList ≠ (FileInfo.mk .file 0 0 1 7).identity "/1".toList := by
  have hp : Path.Anchored "/1|7/a".toList := Path.anchored_of_isAbsolute rfl
  have hq : Path.Anchored "/1".toList := Path.anchored_of_isAbsolute rfl
  refine ⟨hp, hq, fun heq => ?_⟩
  rcases ((identity_eq_iff _ _ hp hq).mp heq).2 with ⟨hzero, _⟩ | ⟨_, hone, _⟩
  · exact hzero rfl
  · cases hone

end FileInfo

end TreeCensus
