import Kirkwood.Ports.BlockStore

/-!
# The registry of block stores

`blockstoreadd` of `devbs.c` enters a store in `bs.disks`, an array indexed by
store number that grows as needed, and `diskget` looks a number up.
`bs.maxdisk` is the highest index of the array, and it is zero before there is
an array.

## Main results

* `registry_correct_iff`: the runs of `blockstoreadd` after which every lookup
  gives the store registered, or none.

The others fail in one of two ways.  Before the first store, number 0 is looked
up in an array that is not there; and when the array grows, the loop that clears
the new cells begins at the old highest index, which holds a store.
-/

namespace Kirkwood.Ports.DiskRegistry

open Kirkwood.Verified.ByteMem
open Kirkwood.Verified.Outcome
open Kirkwood.Ports.BlockStore

/-! ## The code -/

/-- `bs`: the array, empty while `bs.disks` is nil, and its highest index. -/
structure Registry where
  disks : List (Option Store)
  maxdisk : Nat
  deriving DecidableEq, Repr

def empty : Registry := ⟨[], 0⟩

/-- What `realloc` does: whether it finds room for an array of this length, and
what the cells hold that it adds. -/
structure Heap where
  room : Nat → Bool
  fresh : Nat → Option Store

def Heap.realloc (heap : Heap) (disks : List (Option Store)) (n : Nat) :
    List (Option Store) :=
  (List.range n).map fun i => disks.getD i (heap.fresh i)

/-- A read of `disks[i]`. -/
def getcell (disks : List (Option Store)) (i : Int) :
    Except Exn (Option Store) :=
  if 0 ≤ i then
    match disks[i.toNat]? with
    | some cell => .ok cell
    | none => .error .fault
  else .error .fault

/-- The write `disks[i] = v`. -/
def setcell (disks : List (Option Store)) (i : Int) (v : Option Store) :
    Except Exn (List (Option Store)) :=
  if 0 ≤ i ∧ i < disks.length then .ok (disks.set i.toNat v)
  else .error .fault

def diskget (r : Registry) (num : Int) : Except Exn (Option Store) :=
  if num ≥ 0 ∧ num ≤ r.maxdisk then getcell r.disks num else .ok none

/-- The loop of `blockstoreadd`, with the turns it still has to make: each
clears the cell at `maxdisk` and advances `maxdisk`. -/
def clear : Nat → Registry → Except Exn Registry
  | 0, r => .ok r
  | turns + 1, r => do
      let disks ← setcell r.disks r.maxdisk none
      clear turns ⟨disks, r.maxdisk + 1⟩

/-- `snprint(d->name, sizeof d->name, "bs%02d", d->num)` -/
def storeName (num : Int) : Bytes :=
  let digits := ascii (toString num)
  (ascii "bs" ++ (if 0 ≤ num ∧ num < 10 then ascii "0" else []) ++
    digits).take 4

/-- A store as it is once it has been entered. -/
def named (d : Store) : Store := { d with name := storeName d.num }

def blockstoreadd (heap : Heap) (r : Registry) (d : Store) :
    Except Exn Registry :=
  if d.num > 99 then
    .error (.panic ("bad block store num " ++ toString d.num))
  else do
    let old ← diskget r d.num
    if old ≠ none then
      .error (.panic ("disk.num " ++ toString d.num ++ " already registered"))
    else do
      let r ←
        if d.num > r.maxdisk then
          if heap.room (d.num.toNat + 1) then
            clear (d.num.toNat - r.maxdisk)
              ⟨heap.realloc r.disks (d.num.toNat + 1), r.maxdisk⟩
          else .error (.panic "no memory")
        else .ok r
      let disks ← setcell r.disks d.num (some (named d))
      pure ⟨disks, r.maxdisk⟩

/-- A sequence of calls. -/
def addAll (heap : Heap) (ds : List Store) : Except Exn Registry :=
  ds.foldlM (blockstoreadd heap) empty

/-! ## What it is for -/

/-- The store registered with number `k`, by a sequence of calls. -/
def registered (ds : List Store) (k : Int) : Option Store :=
  (ds.find? fun d => d.num = k).map named

/-- All calls return, every number gives the store registered with it or none,
and no call changes the answer for a number other than its store's. -/
structure Correct (heap : Heap) (ds : List Store) : Prop where
  answers : ∃ r, addAll heap ds = .ok r ∧
    ∀ k, diskget r k = .ok (registered ds k)
  stable : ∀ before d after r r', before ++ d :: after = ds →
    addAll heap before = .ok r → blockstoreadd heap r d = .ok r' →
      ∀ k v, k ≠ d.num → diskget r k = .ok v → diskget r' k = .ok v

/-- Stores with distinct numbers between 0 and 99. -/
structure Numbered (ds : List Store) : Prop where
  range : ∀ d ∈ ds, 0 ≤ d.num ∧ d.num ≤ 99
  distinct : ds.Pairwise fun d d' => d.num ≠ d'.num

/-- The first store has the highest number, and that number is not 0. -/
def HighestFirst : List Store → Prop
  | [] => False
  | d :: ds => 0 < d.num ∧ ∀ d' ∈ ds, d'.num < d.num

/-! ## One call -/

theorem setcell_eq {disks : List (Option Store)} {i : Nat}
    (h : i < disks.length) (v : Option Store) :
    setcell disks i v = .ok (disks.set i v) := by
  have hin : (0 : Int) ≤ i ∧ (i : Int) < disks.length := by omega
  rw [setcell, if_pos hin, Int.toNat_natCast]

/-- The loop clears the cells from the old highest index on. -/
theorem clear_spec (turns : Nat) (disks : List (Option Store)) (lo : Nat)
    (h : lo + turns ≤ disks.length) :
    ∃ disks', clear turns ⟨disks, lo⟩ = .ok ⟨disks', lo + turns⟩ ∧
      disks'.length = disks.length ∧
      ∀ i < disks.length, disks'[i]? =
        if lo ≤ i ∧ i < lo + turns then some none else disks[i]? := by
  induction turns generalizing disks lo with
  | zero =>
      refine ⟨disks, rfl, rfl, ?_⟩
      intro i _
      rw [if_neg (by omega)]
  | succ turns ih =>
      obtain ⟨disks', hrun, hlen, hcells⟩ := ih (disks.set lo none) (lo + 1)
        (by rw [List.length_set]; omega)
      refine ⟨disks', ?_, by rw [hlen, List.length_set], ?_⟩
      · have hlt : lo < disks.length := by omega
        unfold clear
        rw [setcell_eq hlt, ok_bind, hrun, Nat.add_assoc, Nat.add_comm 1]
      · intro i hi
        rw [hcells i (by rw [List.length_set]; exact hi)]
        by_cases hlo : i = lo
        · rw [if_neg (by omega), if_pos (by omega), hlo,
            List.getElem?_set_self (by omega)]
        · rw [List.getElem?_set_ne (by omega)]
          by_cases hin : lo + 1 ≤ i ∧ i < lo + 1 + turns
          · rw [if_pos hin, if_pos (by omega)]
          · rw [if_neg hin, if_neg (by omega)]

/-- A number above the highest index makes the array grow, and the cell at the
old highest index is cleared. -/
theorem blockstoreadd_grow {heap : Heap} {r : Registry} {d : Store}
    (hroom : heap.room (d.num.toNat + 1) = true) (hgrow : r.maxdisk < d.num)
    (hmax : d.num ≤ 99) :
    ∃ disks, blockstoreadd heap r d = .ok ⟨disks, d.num.toNat⟩ ∧
      disks.length = d.num.toNat + 1 ∧
      disks[d.num.toNat]? = some (some (named d)) ∧
      ∀ i < d.num.toNat, disks[i]? =
        if r.maxdisk ≤ i then some none
        else some (r.disks.getD i (heap.fresh i)) := by
  have hnum : (d.num.toNat : Int) = d.num := by omega
  have hnew : diskget r d.num = .ok none := if_neg (by omega)
  have hsize : (heap.realloc r.disks (d.num.toNat + 1)).length =
      d.num.toNat + 1 := by
    simp [Heap.realloc]
  obtain ⟨disks, hclear, hlen, hcells⟩ := clear_spec (d.num.toNat - r.maxdisk)
    (heap.realloc r.disks (d.num.toNat + 1)) r.maxdisk (by rw [hsize]; omega)
  have htop : r.maxdisk + (d.num.toNat - r.maxdisk) = d.num.toNat := by omega
  rw [htop] at hclear hcells
  have hset : setcell disks d.num (some (named d)) =
      .ok (disks.set d.num.toNat (some (named d))) := by
    rw [← setcell_eq (by omega), hnum]
  refine ⟨disks.set d.num.toNat (some (named d)), ?_, ?_, ?_, ?_⟩
  · have hle : ¬d.num > 99 := by omega
    simp only [blockstoreadd, hle, if_false, hnew, ok_bind, ne_eq,
      not_true_eq_false, hgrow, if_true, hroom, hclear, hset]
    rfl
  · rw [List.length_set, hlen, hsize]
  · rw [List.getElem?_set_self (by omega)]
  · intro i hi
    rw [List.getElem?_set_ne (by omega), hcells i (by omega)]
    by_cases hlo : r.maxdisk ≤ i
    · rw [if_pos ⟨hlo, hi⟩, if_pos hlo]
    · rw [if_neg (fun h => hlo h.1), if_neg hlo, Heap.realloc,
        List.getElem?_map, List.getElem?_range (by omega)]
      rfl

/-- Before there is an array, number 0 is looked up in nothing. -/
theorem diskget_empty_zero : diskget empty 0 = .error .fault := by
  decide

theorem diskget_empty_ne_zero {k : Int} (h : k ≠ 0) :
    diskget empty k = .ok none := by
  rw [diskget, if_neg]
  simp only [empty]
  omega

theorem blockstoreadd_empty_zero (heap : Heap) {d : Store} (h : d.num = 0) :
    blockstoreadd heap empty d = .error .fault := by
  unfold blockstoreadd
  rw [h, if_neg (by omega), diskget_empty_zero]
  rfl

/-! ## The registry of a sequence -/

/-- The registry that holds the stores of `ds`, with highest index `m`. -/
def holding (m : Nat) (ds : List Store) : Registry :=
  ⟨(List.range (m + 1)).map fun i : Nat => registered ds i, m⟩

theorem registered_none {ds : List Store} {k : Int}
    (h : ∀ d ∈ ds, d.num ≠ k) : registered ds k = none := by
  have hfind : (ds.find? fun d => d.num = k) = none := by
    rw [List.find?_eq_none]
    intro d hd
    simpa using h d hd
  rw [registered, hfind, Option.map_none]

theorem registered_snoc {ds : List Store} {d : Store}
    (hnew : ∀ d' ∈ ds, d'.num ≠ d.num) (k : Int) :
    registered (ds ++ [d]) k =
      if k = d.num then some (named d) else registered ds k := by
  rw [registered, List.find?_append, registered]
  by_cases hk : k = d.num
  · have hfind : (ds.find? fun d' => d'.num = k) = none := by
      rw [List.find?_eq_none]
      intro d' hd'
      rw [hk]
      simpa using hnew d' hd'
    rw [hfind, if_pos hk]
    simp [hk]
  · rw [if_neg hk]
    simp [Ne.symm hk]

/-- Every lookup in it is answered. -/
theorem diskget_holding {m : Nat} {ds : List Store}
    (h : ∀ d ∈ ds, 0 ≤ d.num ∧ d.num ≤ m) (k : Int) :
    diskget (holding m ds) k = .ok (registered ds k) := by
  unfold diskget
  by_cases hk : k ≥ 0 ∧ k ≤ (holding m ds).maxdisk
  · have hm : k ≤ m := hk.2
    have hnat : (k.toNat : Int) = k := by omega
    have hcell : (holding m ds).disks[k.toNat]? = some (registered ds k) := by
      simp only [holding, List.getElem?_map,
        List.getElem?_range (show k.toNat < m + 1 by omega), Option.map_some,
        hnat]
    rw [if_pos hk, getcell, if_pos hk.1, hcell]
  · rw [if_neg hk, registered_none]
    intro d hd hnum
    have := h d hd
    exact hk ⟨by omega, by show k ≤ (m : Int); omega⟩

/-- A store below the highest index is entered. -/
theorem blockstoreadd_below (heap : Heap) {m : Nat} {ds : List Store}
    {d : Store} (h : ∀ d' ∈ ds, 0 ≤ d'.num ∧ d'.num ≤ m)
    (hnew : ∀ d' ∈ ds, d'.num ≠ d.num) (hd : 0 ≤ d.num ∧ d.num < m)
    (hm : m ≤ 99) :
    blockstoreadd heap (holding m ds) d = .ok (holding m (ds ++ [d])) := by
  have hnum : (d.num.toNat : Int) = d.num := by omega
  have hget : diskget (holding m ds) d.num = .ok none := by
    rw [diskget_holding h, registered_none hnew]
  have hle : ¬d.num > 99 := by omega
  have hgrow : ¬d.num > ((holding m ds).maxdisk : Int) := by
    show ¬d.num > (m : Int)
    omega
  have hset : setcell (holding m ds).disks d.num (some (named d)) =
      .ok ((holding m ds).disks.set d.num.toNat (some (named d))) := by
    rw [← setcell_eq (by simp [holding]; omega), hnum]
  have hcells : (holding m ds).disks.set d.num.toNat (some (named d)) =
      (holding m (ds ++ [d])).disks := by
    apply List.ext_getElem
    · simp [holding]
    · intro i h1 h2
      rw [List.getElem_set]
      simp only [holding, List.getElem_map, List.getElem_range,
        registered_snoc hnew]
      by_cases hi : d.num.toNat = i
      · rw [if_pos hi, if_pos (by omega)]
      · rw [if_neg hi, if_neg (by omega)]
  simp only [blockstoreadd, hle, if_false, hget, ok_bind, ne_eq,
    not_true_eq_false, hgrow, hset, hcells]
  rfl

/-- The first store, when its number is not 0, makes an array that ends with
it. -/
theorem blockstoreadd_first {heap : Heap} (hroom : ∀ n, heap.room n = true)
    {d : Store} (hd : 0 < d.num ∧ d.num ≤ 99) :
    blockstoreadd heap empty d = .ok (holding d.num.toNat [d]) := by
  have hnum : (d.num.toNat : Int) = d.num := by omega
  obtain ⟨disks, hrun, hlen, htop, hcells⟩ :=
    blockstoreadd_grow (r := empty) (hroom _) hd.1 hd.2
  have hdisks : disks = (holding d.num.toNat [d]).disks := by
    apply List.ext_getElem?
    intro i
    rcases Nat.lt_trichotomy i d.num.toNat with hlt | rfl | hgt
    · have hlo : empty.maxdisk ≤ i := Nat.zero_le i
      rw [hcells i hlt, if_pos hlo]
      have hother : registered [d] (i : Int) = none :=
        registered_none (by simp; omega)
      simp only [holding, List.getElem?_map,
        List.getElem?_range (show i < d.num.toNat + 1 by omega),
        Option.map_some, hother]
    · rw [htop]
      have hself : registered [d] (d.num.toNat : Int) = some (named d) := by
        rw [hnum]
        simp [registered]
      simp only [holding, List.getElem?_map,
        List.getElem?_range (Nat.lt_succ_self _), Option.map_some, hself]
    · rw [List.getElem?_eq_none (by omega), List.getElem?_eq_none]
      simp only [holding, List.length_map, List.length_range]
      omega
  rw [hrun, hdisks]
  rfl

/-! ## Every sequence -/

theorem Numbered.of_cons {d : Store} {ds : List Store}
    (h : Numbered (d :: ds)) {before after : List Store} {d' : Store}
    (hsplit : ds = before ++ d' :: after) :
    Numbered (d :: before) ∧ d.num ≠ d'.num ∧
      ∀ d'' ∈ before, d''.num ≠ d'.num := by
  subst hsplit
  have hpair := List.pairwise_cons.mp h.distinct
  have happ := List.pairwise_append.mp hpair.2
  refine ⟨⟨?_, ?_⟩, ?_, ?_⟩
  · intro d'' hd''
    refine h.range d'' ?_
    rcases List.mem_cons.mp hd'' with rfl | hin
    · exact List.mem_cons_self
    · exact List.mem_cons_of_mem _ (List.mem_append_left _ hin)
  · exact List.pairwise_cons.mpr
      ⟨fun d'' hd'' => hpair.1 d'' (List.mem_append_left _ hd''), happ.1⟩
  · exact hpair.1 d' (List.mem_append_right _ List.mem_cons_self)
  · exact fun d'' hd'' => happ.2.2 d'' hd'' d' List.mem_cons_self

/-- With the highest number first, every number is in the array. -/
theorem range_of_highestFirst {d : Store} {ds : List Store}
    (hrange : ∀ d' ∈ d :: ds, 0 ≤ d'.num ∧ d'.num ≤ 99)
    (hlow : ∀ d' ∈ ds, d'.num < d.num) :
    ∀ d' ∈ d :: ds, 0 ≤ d'.num ∧ d'.num ≤ (d.num.toNat : Int) := by
  intro d' hd'
  have hd := (hrange d List.mem_cons_self).1
  have hd0 := (hrange d' hd').1
  rcases List.mem_cons.mp hd' with rfl | hin
  · omega
  · have := hlow d' hin
    omega

/-- The registry after a sequence with the highest number first. -/
theorem addAll_holding {heap : Heap} (hroom : ∀ n, heap.room n = true)
    {d : Store} {ds : List Store} (hnum : Numbered (d :: ds))
    (hhigh : HighestFirst (d :: ds)) :
    addAll heap (d :: ds) = .ok (holding d.num.toNat (d :: ds)) := by
  have hd := hnum.range d List.mem_cons_self
  obtain ⟨r, hrun, hr⟩ := foldlM_total (f := blockstoreadd heap)
    (motive := fun done r => r = holding d.num.toNat (d :: done)) ds
    (b := holding d.num.toNat [d])
    (by
      rintro done d' rest r hsplit rfl
      obtain ⟨hbefore, hne, hnew⟩ := hnum.of_cons hsplit.symm
      have hlow : ∀ d'' ∈ done, d''.num < d.num := fun d'' hd'' =>
        hhigh.2 d'' (hsplit ▸ List.mem_append_left _ hd'')
      have hd' : d' ∈ ds := hsplit ▸
        List.mem_append_right _ List.mem_cons_self
      have hstep := blockstoreadd_below heap
        (range_of_highestFirst hbefore.range hlow)
        (List.forall_mem_cons.mpr ⟨hne, hnew⟩)
        ⟨(hnum.range d' (List.mem_cons_of_mem _ hd')).1, by
          have := hhigh.2 d' hd'
          omega⟩ (by omega)
      exact ⟨_, hstep, rfl⟩)
    rfl
  rw [addAll, List.foldlM_cons, blockstoreadd_first hroom ⟨hhigh.1, hd.2⟩,
    ok_bind, hrun, hr]

/-- A sequence with the highest number first is registered correctly. -/
theorem correct_of_highestFirst {heap : Heap} (hroom : ∀ n, heap.room n = true)
    {ds : List Store} (hnum : Numbered ds) (hhigh : HighestFirst ds) :
    Correct heap ds := by
  cases ds with
  | nil => exact hhigh.elim
  | cons d ds =>
      have hd := hnum.range d List.mem_cons_self
      refine ⟨⟨_, addAll_holding hroom hnum hhigh,
        diskget_holding (range_of_highestFirst hnum.range hhigh.2)⟩, ?_⟩
      rintro (_ | ⟨e, before⟩) d' after r r' hsplit hr hstep k v hk hget
      · obtain ⟨rfl, -⟩ := List.cons.inj hsplit
        obtain rfl : empty = r := Except.ok.inj hr
        rw [blockstoreadd_first hroom ⟨hhigh.1, hd.2⟩] at hstep
        obtain rfl := Except.ok.inj hstep
        rw [diskget_holding (by simp; omega), registered_none (by simp; omega),
          ← hget, diskget_empty_ne_zero]
        rintro rfl
        rw [diskget_empty_zero] at hget
        exact absurd hget (by simp)
      · obtain ⟨rfl, hrest⟩ := List.cons.inj hsplit
        obtain ⟨hbefore, hne, hnew⟩ := hnum.of_cons hrest.symm
        have hlow : ∀ d'' ∈ before, d''.num < e.num := fun d'' hd'' =>
          hhigh.2 d'' (hrest ▸ List.mem_append_left _ hd'')
        have hd' : d' ∈ ds := hrest ▸
          List.mem_append_right _ List.mem_cons_self
        have hrange := range_of_highestFirst hbefore.range hlow
        have hnew' : ∀ d'' ∈ e :: before, d''.num ≠ d'.num :=
          List.forall_mem_cons.mpr ⟨hne, hnew⟩
        have hd'pos := (hnum.range d' (List.mem_cons_of_mem _ hd')).1
        have hd'lt := hhigh.2 d' hd'
        rw [addAll_holding hroom hbefore ⟨hhigh.1, hlow⟩] at hr
        obtain rfl := Except.ok.inj hr
        rw [blockstoreadd_below heap hrange hnew' ⟨hd'pos, by omega⟩ (by omega)]
          at hstep
        obtain rfl := Except.ok.inj hstep
        rw [diskget_holding hrange] at hget
        rw [diskget_holding, registered_snoc hnew', if_neg hk, hget]
        intro d'' hd''
        rcases List.mem_append.mp hd'' with hin | hin
        · exact hrange d'' hin
        · obtain rfl := List.mem_singleton.mp hin
          omega

/-- A later store with a higher number evicts the one that had the highest. -/
theorem not_stable_of_higher {heap : Heap} (hroom : ∀ n, heap.room n = true)
    {d d' : Store} {before after : List Store}
    (hnum : Numbered (d :: (before ++ d' :: after))) (hpos : 0 < d.num)
    (hlow : ∀ d'' ∈ before, d''.num < d.num) (hhigh : d.num < d'.num) :
    ¬Correct heap (d :: (before ++ d' :: after)) := by
  intro hcorrect
  obtain ⟨hbefore, -, -⟩ := hnum.of_cons rfl
  have hd' : d' ∈ d :: (before ++ d' :: after) :=
    List.mem_cons_of_mem _ (List.mem_append_right _ List.mem_cons_self)
  have hrun := addAll_holding hroom hbefore ⟨hpos, hlow⟩
  have hgrow : ((holding d.num.toNat (d :: before)).maxdisk : Int) < d'.num := by
    show (d.num.toNat : Int) < d'.num
    omega
  obtain ⟨disks, hstep, -, -, hcells⟩ :=
    blockstoreadd_grow (hroom _) hgrow (hnum.range d' hd').2
  have hold := diskget_holding (range_of_highestFirst hbefore.range hlow) d.num
  have hself : registered (d :: before) d.num = some (named d) := by
    simp [registered]
  rw [hself] at hold
  have hkept := hcorrect.stable (d :: before) d' after _ _ rfl hrun hstep d.num
    _ (by omega) hold
  have hlost := hcells d.num.toNat (by omega)
  have hle : (holding d.num.toNat (d :: before)).maxdisk ≤ d.num.toNat :=
    Nat.le_refl _
  have hin : d.num ≥ 0 ∧ d.num ≤ (d'.num.toNat : Int) := by omega
  rw [if_pos hle] at hlost
  simp only [diskget, hin, and_self, if_true, getcell, hlost] at hkept
  exact absurd hkept (by simp)

/-- **The registry.**  When memory does not run out, a sequence of stores with
distinct numbers is registered correctly exactly when it begins with the
highest number, and that is not 0. -/
theorem registry_correct_iff {heap : Heap} (hroom : ∀ n, heap.room n = true)
    {ds : List Store} (hnum : Numbered ds) :
    Correct heap ds ↔ HighestFirst ds := by
  refine ⟨?_, correct_of_highestFirst hroom hnum⟩
  intro hcorrect
  obtain ⟨r, hrun, hanswers⟩ := hcorrect.answers
  cases ds with
  | nil =>
      obtain rfl : empty = r := Except.ok.inj hrun
      have hzero := hanswers 0
      rw [diskget_empty_zero] at hzero
      exact absurd hzero (by simp)
  | cons d ds =>
      have hd := (hnum.range d List.mem_cons_self).1
      have hpos : 0 < d.num := by
        rcases Int.lt_or_eq_of_le hd with hpos | hzero
        · exact hpos
        · rw [addAll, List.foldlM_cons,
            blockstoreadd_empty_zero heap hzero.symm, error_bind] at hrun
          exact absurd hrun (by simp)
      refine ⟨hpos, ?_⟩
      by_contra hsome
      obtain ⟨d', hd', hnot⟩ : ∃ d' ∈ ds, ¬d'.num < d.num := by
        simpa only [not_forall, exists_prop] using hsome
      have hfound : (ds.find? fun e => ¬e.num < d.num).isSome :=
        List.find?_isSome.mpr ⟨d', hd', by simpa using hnot⟩
      obtain ⟨first, hfind⟩ := Option.isSome_iff_exists.mp hfound
      obtain ⟨hfirst, before, after, hsplit, hbefore⟩ :=
        List.find?_eq_some_iff_append.mp hfind
      subst hsplit
      have hge : ¬first.num < d.num := by simpa using hfirst
      have hne := (hnum.of_cons rfl).2.1
      exact not_stable_of_higher hroom hnum hpos
        (fun d'' hd'' => by simpa using hbefore d'' hd'') (by omega) hcorrect

/-- A heap that never runs out and clears what it hands out. -/
def plenty : Heap := ⟨fun _ => true, fun _ => none⟩

/-- A store before it is entered. -/
def unnamed (num : Int) : Store :=
  { vers := 0
    ready := 0
    num := num
    name := []
    alignmask := 511
    parts := []
    nparts := 0
    size := 0 }

/-- Stores 2 and 1, in this order, are both found. -/
theorem registry_two_one : Correct plenty [unnamed 2, unnamed 1] :=
  (registry_correct_iff (fun _ => rfl)
    ⟨by decide, by decide⟩).mpr ⟨by decide, by decide⟩

/-- In the other order store 1 is lost, and before either is entered number 0
cannot be looked up. -/
theorem registry_one_two :
    Numbered [unnamed 1, unnamed 2] ∧
      addAll plenty [unnamed 1, unnamed 2] =
        .ok ⟨[none, none, some (named (unnamed 2))], 2⟩ ∧
      diskget ⟨[none, none, some (named (unnamed 2))], 2⟩ 1 = .ok none ∧
      registered [unnamed 1, unnamed 2] 1 = some (named (unnamed 1)) ∧
      ¬Correct plenty [unnamed 1, unnamed 2] ∧
      diskget empty 0 = .error .fault := by
  have hrun : addAll plenty [unnamed 1, unnamed 2] =
      .ok ⟨[none, none, some (named (unnamed 2))], 2⟩ := by
    decide +kernel
  have hlost : diskget ⟨[none, none, some (named (unnamed 2))], 2⟩ 1 =
      .ok none := by
    decide +kernel
  have hwas : registered [unnamed 1, unnamed 2] 1 =
      some (named (unnamed 1)) := by
    decide +kernel
  refine ⟨⟨by decide, by decide⟩, hrun, hlost, hwas, ?_, diskget_empty_zero⟩
  intro hcorrect
  obtain ⟨r, hr, hanswers⟩ := hcorrect.answers
  obtain rfl := Except.ok.inj (hrun.symm.trans hr)
  have hone := hanswers 1
  rw [hlost, hwas] at hone
  exact absurd hone (by simp)

end Kirkwood.Ports.DiskRegistry
