import Mathlib.Data.Nat.Count
import Kirkwood.Ports.PartTable

/-!
# The names of MBR parts

`partname` draws a name from one of three series.  Plan 9 parts are `plan9`,
`plan9.0`, `plan9.1` and so on, DOS parts `9fat`, `dos.0`, `dos.1`, each series
in the order of the table; any other entry is `p` and its place in the MBR.
`partname_eq` says that this is what the code does on the four entries.
-/

namespace Kirkwood.Ports.PartTable

open Kirkwood.Verified.ByteMem
open Kirkwood.Verified.Outcome
open Kirkwood.Ports.BlockStore

/-! ## What is written of a name -/

/-- The name `next.i`, uncut. -/
def fullName (next : Bytes) (i : Nat) : Bytes :=
  next ++ ascii "." ++ ascii (toString i)

theorem ascii_digits (i : Nat) :
    ascii (toString i) = (Nat.toDigits 10 i).map fun c => c.toNat.toUInt8 := by
  rw [ascii, Nat.toString_eq_repr, Nat.toList_repr]

theorem digit_toNat {i : Nat} {c : Char} (hc : c ∈ Nat.toDigits 10 i) :
    48 ≤ c.toNat ∧ c.toNat ≤ 57 := by
  have hdigit := Nat.isDigit_of_mem_toDigits (by decide) (by decide) hc
  simp only [Char.isDigit, ge_iff_le, Bool.and_eq_true, decide_eq_true_eq] at hdigit
  exact ⟨UInt32.le_iff_toNat_le.1 hdigit.1, UInt32.le_iff_toNat_le.1 hdigit.2⟩

theorem digits_printable (i : Nat) : Printable (ascii (toString i)) := by
  rw [ascii_digits]
  refine List.all_eq_true.2 fun b hb => ?_
  obtain ⟨c, hc, rfl⟩ := List.mem_map.1 hb
  have hrange := digit_toNat hc
  have hmod : c.toNat.toUInt8.toNat = c.toNat := by
    rw [Nat.toUInt8, UInt8.toNat_ofNat']
    omega
  simp only [printable, Bool.and_eq_true, decide_eq_true_eq]
  omega

section
variable {out : Seprint}

theorem Seprint.text_digits (out : Seprint) (i : Nat) : out.Text (ascii (toString i)) :=
  out.text_printable _ (digits_printable i)

theorem Seprint.text_dot (out : Seprint) {t : Bytes} (h : out.Text t) :
    out.Text (t ++ ascii ".") :=
  out.text_append _ _ h (out.text_printable _ (by decide))

theorem Seprint.text_next (out : Seprint) {next : Bytes} {i : Nat}
    (h : out.Text (fullName next i)) : out.Text next :=
  out.text_init _ _ (by decide) (out.text_init _ _ (digits_printable i) h)

/-- The test of `partgenname` for a long name never holds. -/
theorem Seprint.print_length (out : Seprint) (t : Bytes) :
    (out.print NAMELEN t).length < NAMELEN :=
  out.room NAMELEN t (by decide)

theorem numbered_length (out : Seprint) (next : Bytes) (i : Nat) :
    (numbered out next i).length < NAMELEN := by
  have hfront := out.print_length (next ++ ascii ".")
  have hback := out.room (NAMELEN - (out.print NAMELEN (next ++ ascii ".")).length)
    (ascii (toString i)) (by omega)
  simp only [numbered, List.length_append]
  omega

theorem numbered_of_fits {next : Bytes} {i : Nat} (htext : out.Text next)
    (hfits : (fullName next i).length < NAMELEN) :
    numbered out next i = fullName next i := by
  simp only [fullName, List.length_append] at hfits
  have hfront : out.print NAMELEN (next ++ ascii ".") = next ++ ascii "." :=
    out.whole _ _ (out.text_dot htext) (by rw [List.length_append]; omega)
  unfold numbered fullName
  simp only [hfront]
  rw [out.whole _ _ (out.text_digits i) (by rw [List.length_append]; omega)]

theorem genloop_succ (parts : List Part) (next : Bytes) (fuel i : Nat) :
    genloop out parts next (fuel + 1) i =
      if haspartname parts (numbered out next i) then
        genloop out parts next fuel (i + 1)
      else .ok (numbered out next i) := by
  rw [genloop, if_neg (Nat.ne_of_lt (numbered_length out next i))]

theorem partgenname_eq (parts : List Part) (fuel : Nat) (first next : Bytes) :
    partgenname out fuel parts first next =
      if haspartname parts first then genloop out parts next fuel 0
      else .ok (out.print NAMELEN first) := by
  rw [partgenname, if_neg (Nat.ne_of_lt (out.print_length first))]

end

/-! ## The series -/

inductive Kind where
  | plan9
  | dos
  | other
  deriving DecidableEq, Repr

def kindOf : Nat → Kind
  | 0x39 => .plan9
  | 0x01 | 0x04 | 0x06 | 0x0b | 0x0c | 0x0e => .dos
  | _ => .other

/-- Name `k` of a series. -/
def seriesName : Kind → Nat → Bytes
  | .plan9, 0 => ascii "plan9"
  | .plan9, k + 1 => fullName (ascii "plan9") k
  | .dos, 0 => ascii "9fat"
  | .dos, k + 1 => fullName (ascii "dos") k
  | .other, k => ascii "p" ++ ascii (toString k)

/-- The place of entry `i` in its series. -/
def seriesPlace (p : Bytes) (i : Nat) : Nat :=
  match kindOf (mbrTyp p i) with
  | .other => i
  | kind => Nat.count (fun j => kindOf (mbrTyp p j) = kind) i

def mbrName (p : Bytes) (i : Nat) : Bytes :=
  seriesName (kindOf (mbrTyp p i)) (seriesPlace p i)

/-- The names that four entries can take are distinct. -/
theorem seriesName_inj (a b : Kind) :
    ∀ k < 5, ∀ j < 5, seriesName a k = seriesName b j → a = b ∧ k = j := by
  cases a <;> cases b <;> decide +kernel

theorem seriesName_ne_data (a : Kind) :
    ∀ k < 5, seriesName a k ≠ ascii "data" := by
  cases a <;> decide +kernel

theorem seriesPlace_lt (p : Bytes) {i : Nat} (hi : i < 4) :
    seriesPlace p i < 5 := by
  unfold seriesPlace
  split
  · omega
  · exact Nat.lt_of_le_of_lt (Nat.count_le _) (Nat.lt_succ_of_lt hi)

/-- A series has no gaps. -/
theorem exists_count_iff {P : Nat → Prop} [DecidablePred P] (n k : Nat) :
    (∃ j < n, P j ∧ Nat.count P j = k) ↔ k < Nat.count P n := by
  induction n with
  | zero => simp
  | succ n ih =>
      rw [Nat.count_succ]
      constructor
      · rintro ⟨j, hj, hP, hk⟩
        rcases Nat.lt_succ_iff_lt_or_eq.mp hj with hlt | rfl
        · exact Nat.lt_of_lt_of_le (ih.mp ⟨j, hlt, hP, hk⟩) (Nat.le_add_right _ _)
        · rw [if_pos hP]
          omega
      · intro hk
        by_cases hlt : k < Nat.count P n
        · obtain ⟨j, hj, hrest⟩ := ih.mpr hlt
          exact ⟨j, Nat.lt_succ_of_lt hj, hrest⟩
        · by_cases hP : P n
          · rw [if_pos hP] at hk
            exact ⟨n, Nat.lt_succ_self n, hP, by omega⟩
          · rw [if_neg hP] at hk
            omega

/-- The type decides the series. -/
theorem partname_kind (out : Seprint) (fuel : Nat) (parts : List Part) (typ i : Nat) :
    partname out fuel parts typ i =
      match kindOf typ with
      | .plan9 => partgenname out fuel parts (ascii "plan9") (ascii "plan9")
      | .dos => partgenname out fuel parts (ascii "9fat") (ascii "dos")
      | .other => .ok (out.print NAMELEN (seriesName .other i)) := by
  unfold partname
  split
  case h_8 => simp only [kindOf, seriesName]
  all_goals rfl

/-! ## The search for a free name -/

theorem haspartname_iff {parts : List Part} {name : Bytes} :
    haspartname parts name = true ↔ name ∈ parts.map Part.name := by
  simp only [haspartname, List.any_eq_true, decide_eq_true_eq, List.mem_map]

section
variable {out : Seprint} {parts : List Part}

/-- The loop stops at the first free number. -/
theorem genloop_eq {next : Bytes} {k : Nat}
    (hfree : haspartname parts (numbered out next k) = false) (fuel : Nat) :
    ∀ i ≤ k, k - i < fuel →
      (∀ j, i ≤ j → j < k → haspartname parts (numbered out next j) = true) →
      genloop out parts next fuel i = .ok (numbered out next k) := by
  induction fuel with
  | zero =>
      intro i _ hlt
      omega
  | succ fuel ih =>
      intro i hik hlt htaken
      rw [genloop_succ]
      by_cases heq : i = k
      · rw [heq, hfree]
        rfl
      · rw [htaken i (Nat.le_refl i) (by omega), if_pos rfl]
        exact ih (i + 1) (by omega) (by omega)
          fun j hj hjk => htaken j (by omega) hjk

/-- When the first `k` names of a series are taken and no other, the search
finds name `k`. -/
theorem partgenname_series {kind : Kind} {first next : Bytes} {k fuel : Nat}
    (hfirst : seriesName kind 0 = first)
    (hnext : ∀ j < 4, seriesName kind (j + 1) = numbered out next j)
    (hshort : out.print NAMELEN first = first) (hk : k < 4) (hfuel : 4 ≤ fuel)
    (htaken : ∀ j < 5, haspartname parts (seriesName kind j) = true ↔ j < k) :
    partgenname out fuel parts first next = .ok (seriesName kind k) := by
  rw [partgenname_eq]
  cases k with
  | zero =>
      have hfree : haspartname parts first = false := by
        rw [← hfirst, Bool.eq_false_iff]
        exact fun h => absurd ((htaken 0 (by omega)).mp h) (by omega)
      rw [hfree, hfirst, hshort]
      rfl
  | succ k =>
      have hused : haspartname parts first = true := by
        rw [← hfirst]
        exact (htaken 0 (by omega)).mpr (by omega)
      have hfree : haspartname parts (numbered out next k) = false := by
        rw [← hnext k (by omega), Bool.eq_false_iff]
        exact fun h => absurd ((htaken (k + 1) (by omega)).mp h) (by omega)
      rw [hused, hnext k (by omega)]
      refine genloop_eq hfree fuel 0 (by omega) (by omega) ?_
      intro j _ hj
      rw [← hnext j (by omega)]
      exact (htaken (j + 1) (by omega)).mpr (by omega)

/-- A short text that can be seen is written whole. -/
theorem Seprint.print_whole (out : Seprint) {t : Bytes} (htext : Printable t)
    (hfits : t.length < NAMELEN) : out.print NAMELEN t = t :=
  out.whole _ _ (out.text_printable _ htext) hfits

theorem numbered_whole (out : Seprint) {next : Bytes} (htext : Printable next)
    (hfits : ∀ j < 4, (fullName next j).length < NAMELEN) :
    ∀ j < 4, fullName next j = numbered out next j :=
  fun j hj => (numbered_of_fits (out.text_printable _ htext) (hfits j hj)).symm

end

/-! ## The names that the scan gives -/

/-- The names in the table before entry `i`. -/
def namesBefore (p : Bytes) (i : Nat) : List Bytes :=
  ascii "data" :: ((List.range i).filter fun j => mbrTyp p j ≠ 0).map (mbrName p)

/-- Of a counted series the names before entry `i` hold those of the earlier
entries. -/
theorem mem_namesBefore_iff {p : Bytes} {i : Nat} (hi : i < 4) {kind : Kind}
    (hkind : kind ≠ .other) {k : Nat} (hk : k < 5) :
    seriesName kind k ∈ namesBefore p i ↔
      k < Nat.count (fun j => kindOf (mbrTyp p j) = kind) i := by
  rw [← exists_count_iff, namesBefore, List.mem_cons, List.mem_map]
  constructor
  · rintro (hdata | ⟨j, hj, hname⟩)
    · exact absurd hdata (seriesName_ne_data kind k hk)
    · have hji : j < i := List.mem_range.mp (List.mem_of_mem_filter hj)
      obtain ⟨hkj, hplace⟩ := seriesName_inj _ _ _
        (seriesPlace_lt p (by omega)) _ hk hname
      refine ⟨j, hji, hkj, ?_⟩
      rw [← hplace, seriesPlace, hkj]
      cases kind with
      | plan9 => rfl
      | dos => rfl
      | other => exact absurd rfl hkind
  · rintro ⟨j, hji, hkj, hcount⟩
    right
    refine ⟨j, List.mem_filter.mpr ⟨List.mem_range.mpr hji, ?_⟩, ?_⟩
    · rw [decide_eq_true_eq]
      intro hzero
      rw [hzero] at hkj
      exact hkind hkj.symm
    · rw [mbrName, seriesPlace, hkj]
      cases kind with
      | plan9 => rw [← hcount]
      | dos => rw [← hcount]
      | other => exact absurd rfl hkind

/-- **Names.**  Over a table that holds the names of the earlier entries, entry
`i` gets the next name of its series. -/
theorem partname_eq (out : Seprint) {p : Bytes} {parts : List Part} {i fuel : Nat}
    (hi : i < 4) (hfuel : 4 ≤ fuel) (hnames : parts.map Part.name = namesBefore p i) :
    partname out fuel parts (mbrTyp p i) i = .ok (mbrName p i) := by
  have htaken (kind : Kind) (hkind : kind ≠ .other) : ∀ j < 5,
      haspartname parts (seriesName kind j) = true ↔
        j < Nat.count (fun j => kindOf (mbrTyp p j) = kind) i := by
    intro j hj
    rw [haspartname_iff, hnames]
    exact mem_namesBefore_iff hi hkind hj
  have hcount (kind : Kind) :
      Nat.count (fun j => kindOf (mbrTyp p j) = kind) i < 4 :=
    Nat.lt_of_le_of_lt (Nat.count_le _) hi
  rw [partname_kind, mbrName, seriesPlace]
  cases hkind : kindOf (mbrTyp p i) with
  | plan9 =>
      exact partgenname_series rfl (numbered_whole out (by decide) (by decide))
        (out.print_whole (by decide) (by decide)) (hcount .plan9) hfuel
        (htaken .plan9 (by decide))
  | dos =>
      exact partgenname_series rfl (numbered_whole out (by decide) (by decide))
        (out.print_whole (by decide) (by decide)) (hcount .dos) hfuel
        (htaken .dos (by decide))
  | other =>
      have hshort : ∀ i < 4, Printable (seriesName .other i) ∧
          (seriesName .other i).length < NAMELEN := by decide
      exact congrArg Except.ok (out.print_whole (hshort i hi).1 (hshort i hi).2)

/-! ## Where the search gives up -/

/-- There is a name: the first one is free, or one with a number below the bound. -/
def Nameable (out : Seprint) (fuel : Nat) (names : List Bytes) (first next : Bytes) : Prop :=
  first ∈ names → ∃ i < fuel, numbered out next i ∉ names

/-- There is one for a part of the MBR. -/
def TypeNameable (out : Seprint) (fuel : Nat) (names : List Bytes) (typ : Nat) : Prop :=
  match kindOf typ with
  | .plan9 => Nameable out fuel names (ascii "plan9") (ascii "plan9")
  | .dos => Nameable out fuel names (ascii "9fat") (ascii "dos")
  | .other => True

section
variable {out : Seprint} {fuel : Nat} {parts : List Part}

theorem genloop_hang_iff {next : Bytes} (i : Nat) :
    genloop out parts next fuel i = .error .hang ↔
      ∀ j < fuel, numbered out next (i + j) ∈ parts.map Part.name := by
  induction fuel generalizing i with
  | zero => exact iff_of_true rfl fun j hj => absurd hj (Nat.not_lt_zero j)
  | succ fuel ih =>
      rw [genloop_succ, Nat.forall_lt_succ_left']
      by_cases htaken : haspartname parts (numbered out next i) = true
      · have hmem := haspartname_iff.1 htaken
        rw [if_pos htaken, ih]
        simp only [Nat.add_zero, hmem, true_and, Nat.add_assoc, Nat.add_comm 1]
      · have hfree : numbered out next i ∉ parts.map Part.name :=
          fun hmem => htaken (haspartname_iff.2 hmem)
        rw [if_neg htaken]
        exact iff_of_false nofun fun h => hfree h.1

theorem partgenname_hang_iff {first next : Bytes} :
    partgenname out fuel parts first next = .error .hang ↔
      ¬ Nameable out fuel (parts.map Part.name) first next := by
  rw [partgenname_eq]
  unfold Nameable
  split
  · next htaken =>
      rw [genloop_hang_iff]
      simp [haspartname_iff.1 htaken]
  · next habsent =>
      have hfree : first ∉ parts.map Part.name := fun h => habsent (haspartname_iff.2 h)
      exact iff_of_false nofun fun hnot => hnot fun h => absurd h hfree

theorem partname_hang_iff {typ i : Nat} :
    partname out fuel parts typ i = .error .hang ↔
      ¬ TypeNameable out fuel (parts.map Part.name) typ := by
  rw [partname_kind]
  unfold TypeNameable
  cases kindOf typ with
  | plan9 => exact partgenname_hang_iff
  | dos => exact partgenname_hang_iff
  | other => exact iff_of_false nofun fun h => h trivial

end

end Kirkwood.Ports.PartTable
