import Kirkwood.Ports.BootOptions

/-!
# What the boot parameters say

The command line is a text `name=value name=value ...`.  `options` of `main.c` cuts it up
in place, with a NUL for every `=` and every blank that it stops at, and puts a copy of
each name and each value in a table, where `getconf` looks them up.

## Main results

* `parse_eq`: cutting up in place finds what `addconfs` makes of the text;
* `addconfs_format`: the names and values of a text are those it was made of;
* `options_inverts`: the two for a command line behind a tag `core`.
-/

namespace Kirkwood.Ports.BootConf

open Kirkwood.Verified.Loop
open Kirkwood.Ports.BootOptions (Addr Mem Confs addconf addconfs length_addconf MAXCONF word
  e first Atagcore Atagcmdline Atagnone Atagmax param param_succ inArea_param Core Skipped
  behind options options_skipped)

abbrev Text := List (BitVec 8)

/-! ## The code -/

/-- `*a = b` -/
def poke (mem : Mem) (a : Addr) (b : BitVec 8) : Mem := Function.update mem a b

/-- The bytes of the memory. -/
def span : Nat := 2 ^ 32

/-- `strchr(a, c)`, in the `n` bytes from `a` on. -/
def strchrloop (mem : Mem) (c : BitVec 8) : Nat → Addr → Option Addr
  | 0, _ => none
  | n + 1, a =>
      if mem a = c then some a
      else if mem a = 0#8 then none
      else strchrloop mem c n (a + 1#32)

def strchr (mem : Mem) (a : Addr) (c : BitVec 8) : Option Addr := strchrloop mem c span a

/-- `strdup(a)`, of the `n` bytes from `a` on. -/
def strduploop (mem : Mem) : Nat → Addr → Text
  | 0, _ => []
  | n + 1, a => if mem a = 0#8 then [] else mem a :: strduploop mem n (a + 1#32)

def strdup (mem : Mem) (a : Addr) : Text := strduploop mem span a

/-- The loop of `options` over a command line, for so many turns. -/
def parse (mem : Mem) (confs : Confs) : Nat → Addr → Mem × Confs
  | 0, _ => (mem, confs)
  | turns + 1, k =>
      if mem k = 0#8 then (mem, confs)
      else
        match strchr mem k 0x3d#8 with
        | none => (mem, addconf confs (strdup mem k) none)
        | some v =>
            let mem := poke mem v 0#8
            let v := v + 1#32
            match strchr mem v 0x20#8 with
            | none => (mem, addconf confs (strdup mem k) (some (strdup mem v)))
            | some next =>
                let mem := poke mem next 0#8
                parse mem (addconf confs (strdup mem k) (some (strdup mem v))) turns
                  (next + 1#32)

/-- `getconf`; 0 is `none`. -/
def getconf (cistrcmp : Text → Text → Int) (confs : Confs) (name : Text) : Option Text :=
  match confs with
  | [] => none
  | (confname, confval) :: confs =>
      if cistrcmp confname name = 0 then confval else getconf cistrcmp confs name

/-! ## Texts in memory -/

/-- There is this text at `a`, with a NUL behind it. -/
def Holds (mem : Mem) (a : Addr) : Text → Prop
  | [] => mem a = 0#8
  | c :: s => mem a = c ∧ c ≠ 0#8 ∧ Holds mem (a + 1#32) s

instance decidableHolds (mem : Mem) : (s : Text) → (a : Addr) → Decidable (Holds mem a s)
  | [], a => inferInstanceAs (Decidable (mem a = 0#8))
  | c :: s, a =>
      have := decidableHolds mem s (a + 1#32)
      inferInstanceAs (Decidable (mem a = c ∧ c ≠ 0#8 ∧ Holds mem (a + 1#32) s))

section
variable {mem : Mem} {a b : Addr} {c : BitVec 8} {s : Text}

private theorem next_add (a : Addr) (n : Nat) :
    a + 1#32 + BitVec.ofNat 32 n = a + BitVec.ofNat 32 (n + 1) := by
  rw [BitVec.add_assoc, Nat.add_comm n 1, BitVec.ofNat_add]

private theorem add_zero (a : Addr) : a + BitVec.ofNat 32 0 = a :=
  BitVec.add_zero a

private theorem add_ne {i j : Nat} (hi : i < span) (hj : j < span) (h : i ≠ j) (a : Addr) :
    a + BitVec.ofNat 32 i ≠ a + BitVec.ofNat 32 j := by
  intro heq
  have hnat := congrArg BitVec.toNat ((BitVec.add_right_inj a).1 heq)
  rw [BitVec.toNat_ofNat, BitVec.toNat_ofNat] at hnat
  exact h ((Nat.mod_eq_of_lt hi).symm.trans (hnat.trans (Nat.mod_eq_of_lt hj)))

theorem Holds.drop {t : Text} (h : Holds mem a (s ++ t)) :
    Holds mem (a + BitVec.ofNat 32 s.length) t := by
  induction s generalizing a with
  | nil =>
      rw [List.length_nil, add_zero]
      exact h
  | cons c s ih =>
      rw [List.length_cons, ← next_add]
      exact ih h.2.2

/-- Only the byte behind a text is 0. -/
theorem Holds.byte (h : Holds mem a s) {i : Nat} (hi : i ≤ s.length) :
    mem (a + BitVec.ofNat 32 i) = 0#8 ↔ i = s.length := by
  induction s generalizing a i with
  | nil =>
      obtain rfl : i = 0 := Nat.le_zero.1 hi
      rw [add_zero]
      exact ⟨fun _ => rfl, fun _ => h⟩
  | cons c s ih =>
      cases i with
      | zero =>
          rw [add_zero, h.1]
          exact ⟨fun hc => absurd hc h.2.1, fun hz => nomatch hz⟩
      | succ i =>
          rw [← next_add, ih h.2.2 (Nat.le_of_succ_le_succ hi), List.length_cons,
            Nat.add_right_cancel_iff]

/-- A text does not go around the memory. -/
theorem Holds.short (h : Holds mem a s) : s.length < span := by
  by_contra hlong
  have hend := (h.byte (Nat.le_refl _)).2 rfl
  have hwrap : BitVec.ofNat 32 s.length = BitVec.ofNat 32 (s.length - span) := by
    apply BitVec.eq_of_toNat_eq
    rw [BitVec.toNat_ofNat, BitVec.toNat_ofNat]
    exact Nat.mod_eq_sub_mod (Nat.le_of_not_lt hlong)
  rw [hwrap, h.byte (Nat.sub_le _ _)] at hend
  unfold span at *
  omega

theorem Holds.poke (h : Holds mem a s)
    (hb : ∀ i ≤ s.length, a + BitVec.ofNat 32 i ≠ b) (x : BitVec 8) :
    Holds (poke mem b x) a s := by
  induction s generalizing a with
  | nil =>
      have hne := hb 0 (Nat.le_refl 0)
      rw [add_zero] at hne
      exact (Function.update_of_ne hne ..).trans h
  | cons c s ih =>
      have hne := hb 0 (Nat.zero_le _)
      rw [add_zero] at hne
      refine ⟨(Function.update_of_ne hne ..).trans h.1, h.2.1, ih h.2.2 fun i hi => ?_⟩
      rw [next_add]
      exact hb (i + 1) (Nat.succ_le_succ hi)

/-- A NUL in the middle of a text cuts it. -/
theorem Holds.cut {t : Text} (h : Holds mem a (s ++ t)) :
    Holds (BootConf.poke mem (a + BitVec.ofNat 32 s.length) 0#8) a s := by
  have hshort : s.length < span := by
    have hall := h.short
    rw [List.length_append] at hall
    omega
  suffices hloop : ∀ (front : Text) (b : Addr), front.length ≤ s.length →
      Holds mem b (front ++ t) → b + BitVec.ofNat 32 front.length =
        a + BitVec.ofNat 32 s.length →
      Holds (BootConf.poke mem (a + BitVec.ofNat 32 s.length) 0#8) b front from
    hloop s a (Nat.le_refl _) h rfl
  intro front
  induction front with
  | nil =>
      intro b _ _ hb
      rw [List.length_nil, add_zero] at hb
      rw [← hb]
      exact Function.update_self ..
  | cons c front ih =>
      intro b hle hmem hb
      have hne : b ≠ a + BitVec.ofNat 32 s.length := by
        rw [← hb, List.length_cons]
        have hlt : front.length + 1 < span := Nat.lt_of_le_of_lt hle hshort
        have hdiff := add_ne (i := 0) (by decide) hlt (by omega) b
        rwa [add_zero] at hdiff
      refine ⟨(Function.update_of_ne hne ..).trans hmem.1, hmem.2.1, ?_⟩
      refine ih (b + 1#32) (Nat.le_of_succ_le hle) hmem.2.2 ?_
      rw [next_add]
      exact hb

theorem strduploop_eq (h : Holds mem a s) {n : Nat} (hn : s.length < n) :
    strduploop mem n a = s := by
  induction s generalizing a n with
  | nil =>
      obtain ⟨n, rfl⟩ := Nat.exists_eq_add_of_le' hn
      exact if_pos h
  | cons c s ih =>
      obtain ⟨n, rfl⟩ : ∃ m, n = m + 1 := ⟨n - 1, by omega⟩
      have hne : mem a ≠ 0#8 := h.1 ▸ h.2.1
      rw [strduploop, if_neg hne, h.1, ih h.2.2 (Nat.lt_of_succ_lt_succ hn)]

theorem strdup_eq (h : Holds mem a s) : strdup mem a = s := strduploop_eq h h.short

theorem strchrloop_eq (h : Holds mem a s) (hc : c ≠ 0#8) {n : Nat} (hn : s.length < n) :
    strchrloop mem c n a =
      (BootOptions.strchr c s).map fun cut => a + BitVec.ofNat 32 cut.1.length := by
  induction s generalizing a n with
  | nil =>
      obtain ⟨n, rfl⟩ := Nat.exists_eq_add_of_le' hn
      have hne : mem a ≠ c := by
        rw [show mem a = 0#8 from h]
        exact Ne.symm hc
      exact (if_neg hne).trans (if_pos h)
  | cons d s ih =>
      obtain ⟨n, rfl⟩ : ∃ m, n = m + 1 := ⟨n - 1, by omega⟩
      have hd : mem a ≠ 0#8 := h.1 ▸ h.2.1
      rw [strchrloop, h.1, BootOptions.strchr]
      split
      · rw [Option.map_some, List.length_nil, add_zero]
      · rw [if_neg h.2.1, ih h.2.2 (Nat.lt_of_succ_lt_succ hn), Option.map_map]
        congr 1
        funext cut
        exact next_add a cut.1.length

theorem strchr_eq (h : Holds mem a s) (hc : c ≠ 0#8) :
    strchr mem a c =
      (BootOptions.strchr c s).map fun cut => a + BitVec.ofNat 32 cut.1.length :=
  strchrloop_eq h hc h.short

end

/-! ## Cutting up in place -/

theorem strchr_cut {c : BitVec 8} {s front back : Text}
    (h : BootOptions.strchr c s = some (front, back)) : s = front ++ c :: back := by
  induction s generalizing front with
  | nil => exact nomatch h
  | cons b bs ih =>
      rw [BootOptions.strchr] at h
      split at h
      · rename_i heq
        cases h
        rw [heq, List.nil_append]
      · obtain ⟨⟨front', back'⟩, hbs, heq⟩ := Option.map_eq_some_iff.1 h
        cases heq
        rw [ih hbs, List.cons_append]

/-- A NUL for the separator leaves both parts. -/
theorem Holds.separate {mem : Mem} {a : Addr} {front back : Text} {c : BitVec 8}
    (h : Holds mem a (front ++ c :: back)) :
    Holds (BootConf.poke mem (a + BitVec.ofNat 32 front.length) 0#8) a front ∧
      Holds (BootConf.poke mem (a + BitVec.ofNat 32 front.length) 0#8)
        (a + BitVec.ofNat 32 front.length + 1#32) back := by
  refine ⟨h.cut, h.drop.2.2.poke (fun i hi => ?_) _⟩
  have hshort := h.short
  rw [List.length_append, List.length_cons] at hshort
  rw [next_add]
  have hne := add_ne (i := i + 1) (j := 0) (by omega) (by decide) (by omega)
    (a + BitVec.ofNat 32 front.length)
  rwa [add_zero] at hne

theorem Holds.nonzero {mem : Mem} {a : Addr} {s : Text} (h : Holds mem a s) (hs : s ≠ []) :
    mem a ≠ 0#8 := by
  cases s with
  | nil => exact absurd rfl hs
  | cons c s => exact h.1 ▸ h.2.1

/-- Cutting up in place finds what `addconfs` finds in the text. -/
theorem parse_eq {mem : Mem} {a : Addr} {k : Text} (confs : Confs) {turns : Nat}
    (h : Holds mem a k) (hturns : k.length < turns) :
    (parse mem confs turns a).2 = addconfs confs k := by
  fun_induction addconfs confs k generalizing mem a turns with
  | case1 confs =>
      obtain ⟨turns, rfl⟩ := Nat.exists_eq_add_of_le' hturns
      exact congrArg Prod.snd (if_pos h)
  | case2 confs k hk hv =>
      obtain ⟨turns, rfl⟩ := Nat.exists_eq_succ_of_ne_zero (Nat.ne_zero_of_lt hturns)
      rw [parse, if_neg (h.nonzero hk), strchr_eq h (by decide), hv, strdup_eq h]
      rfl
  | case3 confs k hk k' v hv hnext =>
      obtain ⟨turns, rfl⟩ := Nat.exists_eq_succ_of_ne_zero (Nat.ne_zero_of_lt hturns)
      have hcut := strchr_cut hv
      obtain ⟨hname, hval⟩ := (hcut ▸ h).separate
      rw [parse, if_neg (h.nonzero hk), strchr_eq h (by decide), hv]
      simp only [Option.map_some]
      rw [strchr_eq hval (by decide), hnext, strdup_eq hname, strdup_eq hval]
      rfl
  | case4 confs k hk k' v hv v' next hnext ih =>
      obtain ⟨turns, rfl⟩ := Nat.exists_eq_succ_of_ne_zero (Nat.ne_zero_of_lt hturns)
      have hcut := strchr_cut hv
      obtain ⟨hname, hval⟩ := (hcut ▸ h).separate
      rw [parse, if_neg (h.nonzero hk), strchr_eq h (by decide), hv]
      simp only [Option.map_some]
      rw [strchr_eq hval (by decide), hnext]
      simp only [Option.map_some]
      have hshort := h.short
      have hlen := congrArg List.length hcut
      rw [strchr_cut hnext] at hlen
      simp only [List.length_append, List.length_cons] at hlen
      have hname' := hname.poke (b := a + BitVec.ofNat 32 k'.length + 1#32 +
        BitVec.ofNat 32 v'.length) (fun i hi => ?_) 0#8
      · obtain ⟨hval', hrest⟩ := (strchr_cut hnext ▸ hval).separate
        rw [strdup_eq hname', strdup_eq hval']
        exact ih hrest (by omega)
      · rw [next_add, BitVec.add_assoc, ← BitVec.ofNat_add]
        exact add_ne (by omega) (by omega) (by omega) a

/-! ## Formatting -/

/-- `name=value` -/
def assign (conf : Text × Text) : Text := conf.1 ++ 0x3d#8 :: conf.2

/-- `name=value name=value ...` -/
def format : List (Text × Text) → Text
  | [] => []
  | [conf] => assign conf
  | conf :: conf' :: confs => assign conf ++ 0x20#8 :: format (conf' :: confs)

/-- A name and a value that a command line can give. -/
structure Plain (conf : Text × Text) : Prop where
  name_ne : conf.1 ≠ []
  name_eq : 0x3d#8 ∉ conf.1
  name_blank : 0x20#8 ∉ conf.1
  val_blank : 0x20#8 ∉ conf.2

/-- What `addconf` puts in the table. -/
def entry (conf : Text × Text) : Text × Option Text := (conf.1, some conf.2)

/-- The table with these names and values. -/
def recorded (confs : List (Text × Text)) : Confs := (confs.take MAXCONF).map entry

theorem strchr_found {c : BitVec 8} {front : Text} (h : c ∉ front) (back : Text) :
    BootOptions.strchr c (front ++ c :: back) = some (front, back) := by
  induction front with
  | nil => exact if_pos rfl
  | cons b front ih =>
      rw [List.mem_cons, not_or] at h
      rw [List.cons_append, BootOptions.strchr, if_neg (Ne.symm h.1), ih h.2]
      rfl

theorem strchr_absent {c : BitVec 8} {s : Text} (h : c ∉ s) :
    BootOptions.strchr c s = none := by
  induction s with
  | nil => rfl
  | cons b s ih =>
      rw [List.mem_cons, not_or] at h
      rw [BootOptions.strchr, if_neg (Ne.symm h.1), ih h.2]
      rfl

theorem addconf_take (confs : Confs) (rest : Confs) (name : Text) (val : Option Text)
    (h : confs.length ≤ MAXCONF) :
    (addconf confs name val ++ rest).take MAXCONF =
      (confs ++ (name, val) :: rest).take MAXCONF := by
  unfold addconf
  split
  · rename_i hfull
    have hlen : confs.length = MAXCONF := Nat.le_antisymm h hfull
    rw [← hlen, List.take_left, List.take_left]
  · rw [List.append_assoc, List.singleton_append]

theorem addconfs_last {name val : Text} (hname : 0x3d#8 ∉ name) (hval : 0x20#8 ∉ val)
    (confs : Confs) :
    addconfs confs (assign (name, val)) = addconf confs name (some val) := by
  have hne : assign (name, val) ≠ [] := List.append_ne_nil_of_right_ne_nil _ (by simp)
  rw [addconfs, if_neg hne]
  split
  · rename_i heq
    rw [assign, strchr_found hname] at heq
    cases heq
  · rename_i heq
    rw [assign, strchr_found hname] at heq
    cases heq
    split
    · rfl
    · rename_i heq
      rw [strchr_absent hval] at heq
      cases heq

theorem addconfs_more {name val : Text} (hname : 0x3d#8 ∉ name) (hval : 0x20#8 ∉ val)
    (confs : Confs) (k : Text) :
    addconfs confs (assign (name, val) ++ 0x20#8 :: k) =
      addconfs (addconf confs name (some val)) k := by
  have happ : assign (name, val) ++ 0x20#8 :: k =
      name ++ 0x3d#8 :: (val ++ 0x20#8 :: k) := by
    simp only [assign, List.append_assoc, List.cons_append]
  have hne : name ++ 0x3d#8 :: (val ++ 0x20#8 :: k) ≠ [] :=
    List.append_ne_nil_of_right_ne_nil _ (by simp)
  rw [happ, addconfs, if_neg hne]
  split
  · rename_i heq
    rw [strchr_found hname] at heq
    cases heq
  · rename_i heq
    rw [strchr_found hname] at heq
    cases heq
    split
    · rename_i heq
      rw [strchr_found hval] at heq
      cases heq
    · rename_i heq
      rw [strchr_found hval] at heq
      cases heq
      rfl

theorem addconfs_format {pairs : List (Text × Text)} (h : ∀ conf ∈ pairs, Plain conf)
    {confs : Confs} (hconfs : confs.length ≤ MAXCONF) :
    addconfs confs (format pairs) =
      (confs ++ pairs.map entry).take MAXCONF := by
  fun_induction format pairs generalizing confs with
  | case1 =>
      rw [addconfs, if_pos rfl, List.map_nil, List.append_nil,
        List.take_of_length_le hconfs]
  | case2 conf =>
      have hconf := h conf (List.mem_singleton_self _)
      have hrec := addconf_take confs [] conf.1 (some conf.2) hconfs
      rw [List.append_nil, List.take_of_length_le (length_addconf hconfs _ _)] at hrec
      exact (addconfs_last hconf.name_eq hconf.val_blank confs).trans hrec
  | case3 conf conf' pairs ih =>
      have hconf := h conf (List.mem_cons_self ..)
      rw [show conf = (conf.1, conf.2) from rfl,
        addconfs_more hconf.name_eq hconf.val_blank,
        ih (fun c hc => h c (List.mem_cons_of_mem _ hc)) (length_addconf hconfs _ _),
        addconf_take _ _ _ _ hconfs]
      rfl

theorem addconfs_recorded {pairs : List (Text × Text)} (h : ∀ conf ∈ pairs, Plain conf) :
    addconfs [] (format pairs) = recorded pairs := by
  rw [addconfs_format h (Nat.zero_le _), List.nil_append, ← List.map_take]
  rfl

/-! ## Looking up -/

def tolower (c : BitVec 8) : BitVec 8 :=
  if 0x41#8 ≤ c ∧ c ≤ 0x5a#8 then c + 0x20#8 else c

/-- `cistrcmp` of the C library. -/
def cistrcmp : Text → Text → Int
  | [], [] => 0
  | [], c :: _ => -(c.toNat : Int)
  | c :: _, [] => (tolower c).toNat
  | c1 :: s1, c2 :: s2 =>
      if tolower c1 = tolower c2 then cistrcmp s1 s2
      else (tolower c1).toNat - (tolower c2).toNat

/-- What `cistrcmp` is for: 0 stands for equality up to letter case. -/
def CaseBlind (cistrcmp : Text → Text → Int) : Prop :=
  ∀ s t, 0#8 ∉ s → 0#8 ∉ t → (cistrcmp s t = 0 ↔ s.map tolower = t.map tolower)

private theorem ne_zero {c : BitVec 8} {s : Text} (h : 0#8 ∉ c :: s) :
    c.toNat ≠ 0 ∧ (tolower c).toNat ≠ 0 := by
  have hlower : ∀ c : BitVec 8, c ≠ 0#8 → c.toNat ≠ 0 ∧ (tolower c).toNat ≠ 0 := by decide
  exact hlower c fun hc => h (hc ▸ List.mem_cons_self ..)

theorem cistrcmp_caseBlind : CaseBlind cistrcmp := by
  intro s
  induction s with
  | nil =>
      intro t hs ht
      cases t with
      | nil => simp [cistrcmp]
      | cons d t => simp [cistrcmp, (ne_zero ht).1]
  | cons c s ih =>
      intro t hs ht
      cases t with
      | nil => simp [cistrcmp, (ne_zero hs).2]
      | cons d t =>
          rw [cistrcmp, List.map_cons, List.map_cons, List.cons.injEq]
          split
          · rename_i heq
            rw [ih t (List.not_mem_of_not_mem_cons hs) (List.not_mem_of_not_mem_cons ht)]
            exact (and_iff_right heq).symm
          · rename_i hne
            have hsub : ((tolower c).toNat : Int) - (tolower d).toNat ≠ 0 := fun hz =>
              hne (BitVec.eq_of_toNat_eq (by omega))
            exact iff_of_false hsub fun h => hne h.1

section
variable {cistrcmp : Text → Text → Int}

theorem getconf_recorded (hcis : CaseBlind cistrcmp) {pairs : List (Text × Text)}
    (hpairs : ∀ conf ∈ pairs, 0#8 ∉ conf.1) {x : Text} (hx : 0#8 ∉ x) :
    getconf cistrcmp (recorded pairs) x =
      ((pairs.take MAXCONF).find? fun conf => conf.1.map tolower = x.map tolower).map
        Prod.snd := by
  unfold recorded
  have htake : ∀ conf ∈ pairs.take MAXCONF, 0#8 ∉ conf.1 := fun conf hconf =>
    hpairs conf (List.mem_of_mem_take hconf)
  generalize pairs.take MAXCONF = confs at htake
  induction confs with
  | nil => rfl
  | cons conf confs ih =>
      have hconf := hcis conf.1 x (htake conf (List.mem_cons_self ..)) hx
      rw [List.map_cons, entry, getconf, List.find?_cons]
      by_cases heq : conf.1.map tolower = x.map tolower
      · simp [hconf.2 heq, heq]
      · rw [if_neg (mt hconf.1 heq), ih fun c hc => htake c (List.mem_cons_of_mem _ hc)]
        simp [heq]

end

/-! ## The tags -/

/-- This text is the command line behind the first tag `core`, which other tags may
follow. -/
def CommandLine (mem : Mem) (s : Text) (a : Addr) : Prop :=
  ∃ p n, Core mem p ∧
    (∀ i < n, Skipped mem ((behind mem)^[i] (behind mem p))) ∧
    (behind mem)^[n] (behind mem p) < e ∧
    word mem ((behind mem)^[n] (behind mem p) + 4#32) = Atagcmdline ∧
    a = (behind mem)^[n] (behind mem p) + 4#32 + 4#32 ∧ Holds mem a s

section
variable {mem : Mem} {confs : Confs}

private theorem core_turn (confs : Confs) {j : Nat} (hj : j + 1 < Atagmax) :
    options mem confs (.core (param j)) = some
      (if word mem (param (j + 1)) = Atagcore then .tags (behind mem (param j))
        else .core (param (j + 1))) := by
  have hlt : ¬ param j + 4#32 ≥ e := by
    rw [param_succ]
    exact BitVec.not_le.2 (inArea_param hj).2.1
  rw [options, if_neg hlt, param_succ]
  exact (apply_ite some ..).symm

theorem leads_core {p : Addr} (h : Core mem p) :
    Leads (options mem confs) (.core first) (.tags (behind mem p)) := by
  obtain ⟨j, hj, rfl, hcore, hnot⟩ := h
  have hfirst : param 0 = first := by decide
  suffices hfrom : ∀ d i, i + d = j →
      Leads (options mem confs) (.core (param i)) (.tags (behind mem (param j))) from
    hfirst ▸ hfrom j 0 (Nat.zero_add j)
  intro d
  induction d with
  | zero =>
      rintro i rfl
      refine .turn (core_turn confs hj) ?_
      rw [if_pos hcore]
      exact .refl _
  | succ d ih =>
      intro i hi
      refine .turn (core_turn confs (by omega)) ?_
      rw [if_neg (hnot i (by omega))]
      exact ih (i + 1) (by omega)

theorem leads_tags {p : Addr} {n : Nat}
    (h : ∀ i < n, Skipped mem ((behind mem)^[i] p)) :
    Leads (options mem confs) (.tags p) (.tags ((behind mem)^[n] p)) := by
  induction n generalizing p with
  | zero => exact .refl _
  | succ n ih =>
      refine .turn (options_skipped (h 0 (Nat.zero_lt_succ n))) (ih fun i hi => ?_)
      exact h (i + 1) (Nat.succ_lt_succ hi)

theorem leads_text {a : Addr} {s : Text} (h : Holds mem a s) (k : Text) :
    Leads (options mem confs) (.text k a) (.done (addconfs confs (k ++ s))) := by
  induction s generalizing a k with
  | nil =>
      rw [List.append_nil]
      exact .turn (if_pos h) (.refl _)
  | cons c s ih =>
      have hstep : options mem confs (.text k a) = some (.text (k ++ [c]) (a + 1#32)) := by
        rw [← h.1]
        exact if_neg (h.nonzero (List.cons_ne_nil c s))
      have hrest := ih h.2.2 (k ++ [c])
      rw [List.append_assoc, List.singleton_append] at hrest
      exact .turn hstep hrest

/-- One comes to the command line. -/
theorem leads_cmdline {s : Text} {a : Addr} (h : CommandLine mem s a) :
    Leads (options mem confs) (.core first) (.text [] a) := by
  obtain ⟨p, n, hcore, hskip, hlt, htag, rfl, -⟩ := h
  refine (leads_core hcore).trans ((leads_tags hskip).trans (.turn ?_ (.refl _)))
  have hnone : Atagcmdline ≠ Atagnone := by decide
  rw [options, if_pos hlt, if_neg (htag ▸ hnone), if_pos htag]

theorem Holds.noNul {a : Addr} {s : Text} (h : Holds mem a s) : 0#8 ∉ s := by
  induction s generalizing a with
  | nil => exact List.not_mem_nil
  | cons c s ih => exact List.not_mem_cons_of_ne_of_not_mem (Ne.symm h.2.1) (ih h.2.2)

end

theorem mem_format {pairs : List (Text × Text)} {conf : Text × Text} (h : conf ∈ pairs)
    {c : BitVec 8} (hc : c ∈ conf.1) : c ∈ format pairs := by
  fun_induction format pairs with
  | case1 => exact absurd h List.not_mem_nil
  | case2 conf' =>
      cases List.mem_singleton.1 h
      exact List.mem_append_left _ hc
  | case3 conf' conf'' pairs ih =>
      rcases List.mem_cons.1 h with rfl | hrest
      · exact List.mem_append_left _ (List.mem_append_left _ hc)
      · exact List.mem_append_right _ (List.mem_cons_of_mem _ (ih hrest))

/-- The table holds the names and values of the command line, and a name is looked up in
it up to letter case. -/
theorem options_inverts (cistrcmp : Text → Text → Int) (hcis : CaseBlind cistrcmp)
    (mem : Mem) (pairs : List (Text × Text)) (hpairs : ∀ conf ∈ pairs, Plain conf)
    (a : Addr) (h : CommandLine mem (format pairs) a) :
    Leads (options mem []) (.core first) (.text [] a) ∧
      Leads (options mem []) (.text [] a) (.done (recorded pairs)) ∧
      (∀ turns, (format pairs).length < turns →
        (parse mem [] turns a).2 = recorded pairs) ∧
      ∀ x, 0#8 ∉ x → getconf cistrcmp (recorded pairs) x =
        ((pairs.take MAXCONF).find? fun conf => conf.1.map tolower = x.map tolower).map
          Prod.snd := by
  have hmem : Holds mem a (format pairs) := by
    obtain ⟨-, -, -, -, -, -, -, hmem⟩ := h
    exact hmem
  refine ⟨leads_cmdline h, ?_, fun turns hturns => ?_, fun x hx => ?_⟩
  · have hleads : Leads (options mem []) _ _ := leads_text hmem []
    rwa [List.nil_append, addconfs_recorded hpairs] at hleads
  · rw [parse_eq [] hmem hturns, addconfs_recorded hpairs]
  · exact getconf_recorded hcis (fun conf hconf hzero =>
      hmem.noNul (mem_format hconf hzero)) hx

/-- `ab=x=y C=` -/
def twoconfs : List (Text × Text) :=
  [([0x61#8, 0x62#8], [0x78#8, 0x3d#8, 0x79#8]), ([0x43#8], [])]

/-- A tag `core`, another one, and the command line. -/
def twotags : Mem := fun a =>
  [0x02#8, 0x00#8, 0x00#8, 0x00#8, 0x01#8, 0x00#8, 0x41#8, 0x54#8,
    0x03#8, 0x00#8, 0x00#8, 0x00#8, 0x02#8, 0x00#8, 0x41#8, 0x54#8,
    0x07#8, 0x07#8, 0x07#8, 0x07#8,
    0x05#8, 0x00#8, 0x00#8, 0x00#8, 0x09#8, 0x00#8, 0x41#8, 0x54#8,
    0x61#8, 0x62#8, 0x3d#8, 0x78#8, 0x3d#8, 0x79#8, 0x20#8, 0x43#8,
    0x3d#8].getD (a - first).toNat 0#8

/-- The name `ab` is looked up in upper case. -/
theorem twoconfs_inverts :
    CommandLine twotags (format twoconfs) 0x11c#32 ∧
      (parse twotags [] 10 0x11c#32).2 = recorded twoconfs ∧
      getconf cistrcmp (recorded twoconfs) [0x41#8, 0x42#8] =
        some [0x78#8, 0x3d#8, 0x79#8] := by
  have hpairs : ∀ conf ∈ twoconfs, Plain conf := by
    intro conf hconf
    rcases List.mem_cons.1 hconf with rfl | hconf
    · exact ⟨by decide, by decide, by decide, by decide⟩
    · cases List.mem_singleton.1 hconf
      exact ⟨by decide, by decide, by decide, by decide⟩
  have hline : CommandLine twotags (format twoconfs) 0x11c#32 := by
    refine ⟨first, 1, ⟨0, by decide, by decide, by decide, fun i hi => nomatch hi⟩,
      fun i hi => ?_, by decide, by decide, by decide, by decide⟩
    obtain rfl : i = 0 := Nat.lt_one_iff.1 hi
    unfold Skipped BootOptions.Header BootOptions.InArea
    decide
  obtain ⟨-, -, hparse, hget⟩ :=
    options_inverts cistrcmp cistrcmp_caseBlind twotags twoconfs hpairs 0x11c#32 hline
  exact ⟨hline, hparse 10 (by decide), hget [0x41#8, 0x42#8] (by decide)⟩

end Kirkwood.Ports.BootConf
