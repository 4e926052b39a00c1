import Mathlib.Data.List.Range
import Kirkwood.Verified.Fields
import Kirkwood.Ports.SataRequest

/-!
# What a SATA request says

The EDMA engine takes an entry of `reqs` apart again: direction, tags and the shadow
registers of the ATA command, and either one buffer of at most 64 KiB or the address
of a scatter table that ends with a flag.

## Main results

* `readprds_prdfill`: the table that `prdfill` fills denotes the buffer;
* `request_faithful`: the entry that `io` fills in denotes the request.
-/

namespace Kirkwood.Ports.SataEncode

open Kirkwood.Verified.Fields
open Kirkwood.Ports.SataRequest

/-! ## Reading an entry -/

/-- A byte count of 16 bits; 0 means 64 KiB. -/
def bytecount (x : Nat) : Nat := if x % 2 ^ 16 = 0 then 2 ^ 16 else x % 2 ^ 16

/-- The pieces of the scatter table at `prds[k]`, up to the first end-of-table flag,
which is one of the next `n` entries.  `addrhi` must be 0. -/
def readprds (prds : Nat → Prd) : Nat → Nat → Option (List (Nat × Nat))
  | 0, _ => none
  | n + 1, k =>
      if (prds k).addrhi ≠ 0 then none
      else if field (prds k).flagcount 31 1 = 1 then
        some [((prds k).addrlo, bytecount (prds k).flagcount)]
      else
        (readprds prds n (k + 1)).map
          (((prds k).addrlo, bytecount (prds k).flagcount) :: ·)

/-- The pieces of memory that a request transfers; `base` is the address of `prds`.  The
memory is below 4 GiB, and so is the address of the buffer or the table. -/
def pieces (base : Nat) (prds : Nat → Prd) (rq : Req) : Option (List (Nat × Nat)) :=
  if rq.prdhi ≠ 0 then none
  else if field rq.ctl 16 1 = 1 then some [(rq.prdlo, bytecount rq.count)]
  else readprds prds 8 ((rq.prdlo - base) / 16)

/-- The addresses of a piece, modulo the size of the memory. -/
def bytes (p : Nat × Nat) : List Nat := (List.range p.2).map fun j => (p.1 + j) % 2 ^ 32

/-- Word `k` of the shadow registers. -/
def ata (rq : Req) (k : Nat) : Nat := rq.ata.getD k 0

/-- The pieces are the `n` bytes from `buf` on, in order. -/
structure Covers (ps : List (Nat × Nat)) (buf n : Nat) : Prop where
  data : ps.flatMap bytes = (List.range n).map fun j => (buf + j) % 2 ^ 32
  length : ps.length ≤ 8
  size : ∀ p ∈ ps, 1 ≤ p.2 ∧ p.2 ≤ 64 * 1024
  aligned : ∀ p ∈ ps, p.1 % 2 = 0

/-- A request, as the engine reads it. -/
structure Denotes (base : Nat) (prds : Nat → Prd) (rq : Req) (write : Bool)
    (tag buf ns lba : Nat) : Prop where
  direction : field rq.ctl 0 1 = if write then 0 else 1
  command : field (ata rq 0) 16 8 = if write then 0x61 else 0x60
  devtag : field rq.ctl 1 5 = tag
  hosttag : field rq.ctl 17 5 = tag
  atatag : field (ata rq 3) 3 5 = tag
  lba : field (ata rq 1) 0 24 + 2 ^ 24 * field (ata rq 2) 0 24 = lba
  count : field (ata rq 0) 24 8 + 2 ^ 8 * field (ata rq 2) 24 8 = ns
  data : ∃ ps, pieces base prds rq = some ps ∧ Covers ps buf (ns * 512)

/-- The fields of the control word. -/
def ctlfields (write single : Bool) (tag : Nat) : List Field :=
  [⟨if write then 0 else 1, 0, 1⟩, ⟨tag, 1, 5⟩, ⟨if single then 1 else 0, 16, 1⟩,
    ⟨tag, 17, 5⟩]

/-- The fields of the shadow registers. -/
def atafields (write : Bool) (tag ns lba : Nat) : List (List Field) :=
  [[⟨if write then 0x61 else 0x60, 16, 8⟩, ⟨field ns 0 8, 24, 8⟩],
    [⟨field lba 0 24, 0, 24⟩, ⟨1 <<< 6, 24, 8⟩],
    [⟨field lba 24 24, 0, 24⟩, ⟨field ns 8 8, 24, 8⟩],
    [⟨tag, 3, 5⟩]]

/-- The words of a request hold these fields, and no field overlaps another. -/
structure Filled (rq : Req) (write single : Bool) (tag ns lba : Nat) : Prop where
  ctl : rq.ctl = word (ctlfields write single tag) ∧ Apart (ctlfields write single tag)
  ata : rq.ata = (atafields write tag ns lba).map word ∧
    ∀ fs ∈ atafields write tag ns lba, Apart fs

/-! ## The data -/

theorem bytecount_and (n : Nat) (hpos : 0 < n) (hle : n ≤ 64 * 1024) :
    bytecount (n &&& ((1 <<< 16) - 1)) = n := by
  have hmask : (1 <<< 16) - 1 = 2 ^ 16 - 1 := rfl
  rw [hmask, Nat.and_two_pow_sub_one_eq_mod]
  unfold bytecount
  split
  · omega
  · omega

theorem flatMap_bytes_append (buf m n : Nat) :
    (List.range (m + n)).map (fun j => (buf + j) % 2 ^ 32) =
      bytes (buf, m) ++ (List.range n).map fun j => ((buf + m) % 2 ^ 32 + j) % 2 ^ 32 := by
  rw [List.range_add, List.map_append, bytes, List.map_map]
  congr 1
  apply List.map_congr_left
  intro j _
  simp only [Function.comp]
  rw [Nat.mod_add_mod, Nat.add_assoc]

private theorem and_lt (n : Nat) : n &&& ((1 <<< 16) - 1) < 2 ^ 16 :=
  Nat.lt_of_le_of_lt Nat.and_le_right (by decide)

theorem or_endoftable {c : Nat} (hc : c < 2 ^ 16) : c ||| Endoftable = 2 ^ 31 * 1 + c := by
  have hlt : c < 2 ^ 31 := Nat.lt_trans hc (by decide)
  rw [Nat.two_pow_add_eq_or_of_lt hlt, Nat.or_comm]
  rfl

theorem bytecount_bounds (x : Nat) : 1 ≤ bytecount x ∧ bytecount x ≤ 64 * 1024 := by
  unfold bytecount
  split
  · omega
  · omega

/-- The last entry of a table. -/
theorem readprds_last (prds : Nat → Prd) (n k buf : Nat) {c : Nat} (hc : c < 2 ^ 16)
    (hk : prds k = ⟨buf, c ||| Endoftable, 0⟩) :
    readprds prds (n + 1) k = some [(buf, bytecount c)] := by
  have hflag : field (2 ^ 31 * 1 + c) 31 1 = 1 := by
    unfold field
    omega
  have hcount : bytecount (2 ^ 31 * 1 + c) = bytecount c := by
    unfold bytecount
    rw [show (2 ^ 31 * 1 + c) % 2 ^ 16 = c % 2 ^ 16 by omega]
  rw [readprds, hk, or_endoftable hc, hflag, hcount, if_neg (not_not.2 rfl), if_pos rfl]

/-- An entry before the last. -/
theorem readprds_more (prds : Nat → Prd) (n k buf : Nat) {c : Nat} (hc : c < 2 ^ 16)
    (hk : prds k = ⟨buf, c, 0⟩) :
    readprds prds (n + 1) k =
      (readprds prds n (k + 1)).map ((buf, bytecount c) :: ·) := by
  have hflag : field c 31 1 = 0 := by
    unfold field
    omega
  rw [readprds, hk, hflag, if_neg (not_not.2 rfl), if_neg Nat.zero_ne_one]

theorem readprds_length {prds : Nat → Prd} {n k : Nat} {ps : List (Nat × Nat)}
    (h : readprds prds n k = some ps) :
    ps.length ≤ n ∧ ∀ p ∈ ps, 1 ≤ p.2 ∧ p.2 ≤ 64 * 1024 := by
  induction n generalizing k ps with
  | zero => exact nomatch h
  | succ n ih =>
      rw [readprds] at h
      split at h
      · cases h
      split at h
      · cases h
        refine ⟨by simp, fun p hp => ?_⟩
        rw [List.mem_singleton.1 hp]
        exact bytecount_bounds _
      · obtain ⟨qs, hqs, rfl⟩ := Option.map_eq_some_iff.1 h
        obtain ⟨hlen, hsize⟩ := ih hqs
        refine ⟨Nat.succ_le_succ hlen, fun p hp => ?_⟩
        rcases List.mem_cons.1 hp with rfl | hp
        · exact bytecount_bounds _
        · exact hsize p hp

/-- The table of `n` bytes from `buf` on; a table of `p` entries has room for it. -/
theorem readprds_prdfill (p : Nat) (prds : Nat → Prd) (k buf n : Nat) (hpos : 0 < n)
    (hn : n ≤ p * (64 * 1024)) (heven : buf % 2 = 0) :
    ∃ ps, readprds (prdfill prds k buf n) p k = some ps ∧
      (ps.flatMap bytes = (List.range n).map fun j => (buf + j) % 2 ^ 32) ∧
      ∀ q ∈ ps, q.1 % 2 = 0 := by
  induction p generalizing prds k buf n with
  | zero => omega
  | succ p ih =>
      have hcount :
          bytecount (min n (64 * 1024) &&& ((1 <<< 16) - 1)) = min n (64 * 1024) :=
        bytecount_and _ (by omega) (by omega)
      rw [prdfill]
      by_cases hlast : n - min n (64 * 1024) = 0
      · -- the rest of the buffer fits in one entry
        have hmin : min n (64 * 1024) = n := by omega
        have hread := readprds_last
          (Function.update prds k ⟨buf, (min n (64 * 1024) &&& ((1 <<< 16) - 1)) |||
            Endoftable, 0⟩) p k buf (and_lt _) (Function.update_self ..)
        rw [dif_pos hlast]
        refine ⟨_, hread, ?_, fun q hq => ?_⟩
        · rw [hcount, hmin, List.flatMap_cons, List.flatMap_nil, List.append_nil, bytes]
        · rw [List.mem_singleton.1 hq]
          exact heven
      · have hmin : min n (64 * 1024) = 64 * 1024 := by omega
        have hp : 0 < p := by
          by_contra hzero
          have : p = 0 := by omega
          subst this
          omega
        have hfirst : prdfill (Function.update prds k
              ⟨buf, min n (64 * 1024) &&& ((1 <<< 16) - 1), 0⟩) (k + 1)
              ((buf + 64 * 1024) % 2 ^ 32) (n - min n (64 * 1024)) k =
            ⟨buf, min n (64 * 1024) &&& ((1 <<< 16) - 1), 0⟩ := by
          rw [prdfill_frame hp (by omega) (.inl (Nat.lt_succ_self k)), Function.update_self]
        obtain ⟨ps, hps, hbytes, haligned⟩ := ih (Function.update prds k
            ⟨buf, min n (64 * 1024) &&& ((1 <<< 16) - 1), 0⟩) (k + 1)
          ((buf + 64 * 1024) % 2 ^ 32) (n - min n (64 * 1024)) (by omega) (by omega)
          (by omega)
        rw [dif_neg hlast, readprds_more _ p k buf (and_lt _) hfirst, hcount, hps]
        refine ⟨_, rfl, ?_, fun q hq => ?_⟩
        · rw [List.flatMap_cons, hbytes]
          have hsplit := flatMap_bytes_append buf (min n (64 * 1024))
            (n - min n (64 * 1024))
          rw [Nat.add_sub_cancel' (Nat.min_le_left n _)] at hsplit
          rw [hsplit, hmin]
        · rcases List.mem_cons.1 hq with rfl | hq
          · exact heven
          · exact haligned q hq

/-! ## The words -/

private theorem fillreq_ctl (prds i tag : Nat) (t : Transfer) (htag : tag < 32) :
    (fillreq prds i tag t).ctl = word (ctlfields t.write (decide (t.ns ≤ 128)) tag) := by
  have hall : ∀ (tag : Fin 32) (write single : Bool),
      ((if write then (if single then Rprdsingle else 0) else
        (if single then Rprdsingle else 0) ||| Rdev2mem) ||| tag.val <<< Rdevtagshift) |||
        tag.val <<< Rhosttagshift = word (ctlfields write single tag.val) := by
    decide +kernel
  have hctl := hall ⟨tag, htag⟩ t.write (decide (t.ns ≤ 128))
  rw [← hctl]
  unfold fillreq
  by_cases hns : t.ns > 128
  · have hsingle : ¬ t.ns ≤ 128 := Nat.not_le.2 hns
    simp only [hns, hsingle, if_true, decide_false, Bool.false_eq_true, if_false]
  · have hsingle : t.ns ≤ 128 := Nat.le_of_not_lt hns
    simp only [hns, hsingle, if_true, decide_true, if_false]

private theorem shift_mask (x o w : Nat) : x >>> o &&& (2 ^ w - 1) = field x o w := by
  rw [Nat.and_two_pow_sub_one_eq_mod, Nat.shiftRight_eq_div_pow, field]

private theorem word_two {a b o k w w' : Nat} (h : a < 2 ^ w) (ho : o + w = k) :
    a <<< o ||| b <<< k = word [⟨a, o, w⟩, ⟨b, k, w'⟩] := by
  have hlow : a <<< o < 2 ^ k := by
    rw [Nat.shiftLeft_eq, ← ho, Nat.pow_add, Nat.mul_comm]
    exact Nat.mul_lt_mul_of_pos_left h (Nat.two_pow_pos o)
  rw [or_shift hlow, Nat.shiftLeft_eq, word, List.map_cons, List.map_cons, List.map_nil,
    List.sum_cons, List.sum_cons, List.sum_nil, Nat.add_zero]

private theorem command_lt (write : Bool) : (if write then 0x61 else 0x60) < 2 ^ 8 := by
  cases write
  · decide
  · decide

private theorem fillreq_ata (prds i tag : Nat) (t : Transfer) :
    (fillreq prds i tag t).ata = (atafields t.write tag t.sectors t.lba).map word := by
  have hmask24 : MASK 24 = 2 ^ 24 - 1 := rfl
  have hmask8 : 0xff = 2 ^ 8 - 1 := rfl
  have hcmd : (if t.write then 0x61 else 0x60) < 2 ^ 8 := command_lt t.write
  have h0 : (if t.write then 0x61 else 0x60) <<< 16 ||| field t.sectors 0 8 <<< 24 =
      word [⟨if t.write then 0x61 else 0x60, 16, 8⟩, ⟨field t.sectors 0 8, 24, 8⟩] :=
    word_two hcmd rfl
  have h1 : field t.lba 0 24 <<< 0 ||| (1 <<< 6) <<< 24 =
      word [⟨field t.lba 0 24, 0, 24⟩, ⟨1 <<< 6, 24, 8⟩] := word_two (field_lt ..) rfl
  have h2 : field t.lba 24 24 <<< 0 ||| field t.sectors 8 8 <<< 24 =
      word [⟨field t.lba 24 24, 0, 24⟩, ⟨field t.sectors 8 8, 24, 8⟩] :=
    word_two (field_lt ..) rfl
  have h3 : tag <<< 3 = word [⟨tag, 3, 5⟩] := Nat.shiftLeft_eq tag 3
  unfold fillreq
  simp only [hmask24, hmask8, shift_mask, h0, h1, h2, h3]
  rfl

private theorem apart_pair {f g : Field} (hf : f.value < 2 ^ f.width)
    (hg : g.value < 2 ^ g.width) (h : f.place + f.width ≤ g.place) : Apart [f, g] where
  fits e he := by
    rcases List.mem_pair.1 he with rfl | rfl
    · exact hf
    · exact hg
  apart := List.pairwise_pair.2 h

/-- The words of the entry that `io` fills in, apart from the buffer. -/
theorem filled (prds i tag : Nat) (t : Transfer) (htag : tag < 32) :
    Filled (fillreq prds i tag t) t.write (decide (t.ns ≤ 128)) tag t.sectors t.lba := by
  have hctl : ∀ (tag : Fin 32) (write single : Bool),
      (∀ f ∈ ctlfields write single tag, f.value < 2 ^ f.width) ∧
        (ctlfields write single tag).Pairwise fun f g => f.place + f.width ≤ g.place := by
    decide +kernel
  have hcmd := command_lt t.write
  obtain ⟨hfits, hapart⟩ := hctl ⟨tag, htag⟩ t.write (decide (t.ns ≤ 128))
  refine ⟨⟨fillreq_ctl prds i tag t htag, hfits, hapart⟩, fillreq_ata prds i tag t, ?_⟩
  intro fs hfs
  simp only [atafields, List.mem_cons, List.not_mem_nil, or_false] at hfs
  rcases hfs with rfl | rfl | rfl | rfl
  · exact apart_pair hcmd (field_lt ..) (Nat.le_refl 24)
  · exact apart_pair (field_lt ..) (by decide) (Nat.le_refl 24)
  · exact apart_pair (field_lt ..) (field_lt ..) (Nat.le_refl 24)
  · exact ⟨fun f hf => List.mem_singleton.1 hf ▸ htag, List.pairwise_singleton ..⟩

private theorem Filled.ctl_field {rq : Req} {write single : Bool} {tag ns lba : Nat}
    (h : Filled rq write single tag ns lba) {f : Field}
    (hf : f ∈ ctlfields write single tag) : field rq.ctl f.place f.width = f.value := by
  rw [h.ctl.1]
  exact field_word h.ctl.2 hf

private theorem Filled.ata_field {rq : Req} {write single : Bool} {tag ns lba : Nat}
    (h : Filled rq write single tag ns lba) (k : Nat) {f : Field}
    (hf : f ∈ (atafields write tag ns lba).getD k []) :
    field (rq.ata.getD k 0) f.place f.width = f.value := by
  have hword : rq.ata.getD k 0 = word ((atafields write tag ns lba).getD k []) := by
    rw [h.ata.1]
    rw [List.getD_eq_getElem?_getD, List.getD_eq_getElem?_getD, List.getElem?_map]
    cases (atafields write tag ns lba)[k]? with
    | none => rfl
    | some fs => rfl
  have hmem : (atafields write tag ns lba).getD k [] ∈ atafields write tag ns lba := by
    rw [List.getD_eq_getElem?_getD] at hf ⊢
    cases hk : (atafields write tag ns lba)[k]? with
    | none =>
        rw [hk] at hf
        exact nomatch hf
    | some fs => exact List.mem_of_getElem? hk
  rw [hword]
  exact field_word (h.ata.2 _ hmem) hf

private theorem field_split {x m n : Nat} (h : x < 2 ^ (m + n)) :
    field x 0 m + 2 ^ m * field x m n = x := by
  have hhigh : x / 2 ^ m < 2 ^ n := by
    rw [Nat.div_lt_iff_lt_mul (Nat.two_pow_pos m), ← Nat.pow_add, Nat.add_comm]
    exact h
  unfold field
  rw [Nat.pow_zero, Nat.div_one, Nat.mod_eq_of_lt hhigh]
  exact Nat.mod_add_div x (2 ^ m)

/-- One buffer. -/
private theorem single_covers {buf ns : Nat} (heven : buf % 2 = 0) (hpos : 0 < ns)
    (hns : ns ≤ 128) :
    Covers [(buf, bytecount (ns * 512 &&& ((1 <<< 16) - 1)))] buf (ns * 512) where
  data := by
    rw [bytecount_and _ (by omega) (by omega), List.flatMap_cons, List.flatMap_nil,
      List.append_nil, bytes]
  length := by simp
  size p hp := by
    rw [List.mem_singleton.1 hp]
    exact bytecount_bounds _
  aligned p hp := by
    rw [List.mem_singleton.1 hp]
    exact heven

/-- The data of the entry that `io` fills in. -/
theorem pieces_fill (prds : Nat → Prd) (base i tag : Nat) (t : Transfer)
    (heven : t.buf % 2 = 0) (htag : tag < 32) (hpos : 0 < t.ns) :
    ∃ ps, pieces base (fillprds prds i t) (fillreq base i tag t) = some ps ∧
      Covers ps t.buf (t.sectors * 512) := by
  have hsectors := t.sectors_eq
  have hsingle : field (fillreq base i tag t).ctl 16 1 =
      if decide (t.ns ≤ 128) then 1 else 0 :=
    (filled base i tag t htag).ctl_field (.tail _ (.tail _ (.head _)))
  have hhigh : ¬ (fillreq base i tag t).prdhi ≠ 0 := by
    unfold fillreq
    split <;> exact not_not.2 rfl
  unfold pieces
  rw [if_neg hhigh]
  by_cases hns : t.ns ≤ 128
  · have hread : (fillreq base i tag t).prdlo = t.buf ∧
        (fillreq base i tag t).count = t.ns * 512 &&& ((1 <<< 16) - 1) := by
      unfold fillreq
      simp only [Nat.not_lt.2 hns, if_false, and_self]
    rw [hsingle, decide_eq_true hns, if_pos rfl, if_pos rfl, hread.1, hread.2,
      show t.sectors = t.ns by omega]
    exact ⟨_, rfl, single_covers heven hpos hns⟩
  · have hread : ((fillreq base i tag t).prdlo - base) / 16 = i * 8 := by
      unfold fillreq
      simp only [Nat.lt_of_not_le hns, if_true]
      omega
    obtain ⟨ps, hps, hdata, haligned⟩ := readprds_prdfill 8 prds (i * 8) t.buf
      (t.sectors * 512) (by omega) (by omega) heven
    obtain ⟨hlength, hsize⟩ := readprds_length hps
    rw [hsingle, decide_eq_false hns, if_neg (by decide), hread, fillprds,
      if_pos (Nat.lt_of_not_le hns)]
    exact ⟨ps, hps, hdata, hlength, hsize, haligned⟩

/-- The entry that `io` fills in for a request, and the scatter table of its slot. -/
theorem request_faithful (prds : Nat → Prd) (base i tag : Nat) (write : Bool)
    {buf lba nb : Nat} (heven : buf % 2 = 0) (htag : tag < 32) (hlba : lba < 2 ^ 48)
    (hpos : 0 < nb) (hsectors : nb % 512 = 0) :
    Denotes base (fillprds prds i ⟨write, buf, nb / 512, lba⟩)
        (fillreq base i tag ⟨write, buf, nb / 512, lba⟩) write tag buf
        (min (nb / 512) 1024) lba ∧
      Filled (fillreq base i tag ⟨write, buf, nb / 512, lba⟩) write
        (decide (nb / 512 ≤ 128)) tag (min (nb / 512) 1024) lba := by
  have hns : (⟨write, buf, nb / 512, lba⟩ : Transfer).sectors = min (nb / 512) 1024 :=
    Transfer.sectors_eq _
  have hfill := filled base i tag ⟨write, buf, nb / 512, lba⟩ htag
  have hdata := pieces_fill prds base i tag ⟨write, buf, nb / 512, lba⟩ heven htag
    (show 0 < nb / 512 by omega)
  rw [hns] at hfill hdata
  have hcount : min (nb / 512) 1024 < 2 ^ (8 + 8) := by omega
  refine ⟨⟨?_, ?_, ?_, ?_, ?_, ?_, ?_, hdata⟩, hfill⟩
  · exact hfill.ctl_field (.head _)
  · exact hfill.ata_field 0 (.head _)
  · exact hfill.ctl_field (.tail _ (.head _))
  · exact hfill.ctl_field (.tail _ (.tail _ (.tail _ (.head _))))
  · exact hfill.ata_field 3 (.head _)
  · have hlow : field (ata _ 1) 0 24 = field lba 0 24 := hfill.ata_field 1 (.head _)
    have hhigh : field (ata _ 2) 0 24 = field lba 24 24 := hfill.ata_field 2 (.head _)
    rw [hlow, hhigh]
    exact field_split hlba
  · have hlow : field (ata _ 0) 24 8 = field (min (nb / 512) 1024) 0 8 :=
      hfill.ata_field 0 (.tail _ (.head _))
    have hhigh : field (ata _ 2) 24 8 = field (min (nb / 512) 1024) 8 8 :=
      hfill.ata_field 2 (.tail _ (.head _))
    rw [hlow, hhigh]
    exact field_split hcount

theorem request_faithful_full_table :
    (8 % 2 = 0 ∧ 31 < 32 ∧ 2 ^ 40 + 3 < 2 ^ 48 ∧ 0 < 2 ^ 20 ∧ 2 ^ 20 % 512 = 0) ∧
      Denotes 0x40000 (fillprds (fun _ => ⟨0, 0, 0⟩) 2 ⟨true, 8, 2 ^ 20 / 512, 2 ^ 40 + 3⟩)
        (fillreq 0x40000 2 31 ⟨true, 8, 2 ^ 20 / 512, 2 ^ 40 + 3⟩) true 31 8
        (min (2 ^ 20 / 512) 1024) (2 ^ 40 + 3) :=
  ⟨by decide,
    (request_faithful (fun _ => ⟨0, 0, 0⟩) 0x40000 2 31 true rfl (by decide) (by decide)
      (by decide) (by decide)).1⟩

end Kirkwood.Ports.SataEncode
