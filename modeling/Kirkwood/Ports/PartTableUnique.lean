import Kirkwood.Ports.PartTableComplete

/-!
# Which names of partitions are new

`partgenname` tests whether `seprint` has come to the end of `Part.name`, and would raise
`Elongname` then.  `seprint` stops at the NUL, one byte before: a name that is too long is
cut.  A cut name may be there already, and a number that is cut off does not make a name
new, however far the search goes.

The number `i` is an `int` of C and a natural number here: among the numbers that are not
cut off one is free long before an `int` wraps, or none is.

## Main results

* `generated_iff`: when `partgenname` ends with an error for a long name or with a whole
  name that no part has;
* `nodup_iff`: when the names of a scan that returned are distinct;
* `names_new_iff`: the two together.
-/

namespace Kirkwood.Ports.PartTable

open Kirkwood.Verified.ByteMem
open Kirkwood.Verified.Outcome
open Kirkwood.Ports.BlockStore

/-! ## What a name is for -/

/-- A whole name, with room for its NUL, that no part has. -/
structure New (names : List Bytes) (first next name : Bytes) : Prop where
  whole : name = first ∨ ∃ i, name = fullName next i
  fits : name.length < NAMELEN
  free : name ∉ names

/-- How `partgenname` may end. -/
def Generated (names : List Bytes) (first next : Bytes) : Except Exn Bytes → Prop
  | .ok name => New names first next name
  | .error e => e = .error Elongname

/-- The name to start with is taken, and a numbered one is free and fits; or it is free and
fits, or what is left of it happens to be a numbered one that is free. -/
def NameFits (out : Seprint) (names : List Bytes) (first next : Bytes) : Prop :=
  if first ∈ names then
    out.Text next ∧ ∃ i, (fullName next i).length < NAMELEN ∧ fullName next i ∉ names
  else
    out.Text first ∧ first.length < NAMELEN ∨
      ∃ i, out.print NAMELEN first = fullName next i ∧ out.print NAMELEN first ∉ names

/-! ## The search -/

section
variable {out : Seprint} {parts : List Part} {first next : Bytes}

theorem length_fullName (next : Bytes) (i : Nat) :
    (fullName next i).length = next.length + 1 + (toString i).length := by
  simp only [fullName, ascii, List.length_append, List.length_map, String.length_toList]
  rfl

/-- A smaller number does not make a longer name. -/
theorem length_fullName_le {i j : Nat} (h : i ≤ j) :
    (fullName next i).length ≤ (fullName next j).length := by
  rw [length_fullName, length_fullName]
  have hdigits : (toString i).length ≤ (toString j).length :=
    (Nat.length_repr_le_iff Nat.length_repr_pos).2
      (Nat.lt_of_le_of_lt h
        ((Nat.length_repr_le_iff Nat.length_repr_pos).1 (Nat.le_refl _)))
  omega

theorem text_numbered (next : Bytes) (i : Nat) : out.Text (numbered out next i) :=
  out.text_append _ _ (out.text _ _) (out.text _ _)

theorem genloop_ne_error (fuel i : Nat) (msg : String) :
    genloop out parts next fuel i ≠ .error (.error msg) := by
  induction fuel generalizing i with
  | zero =>
      intro h
      cases h
  | succ fuel ih =>
      rw [genloop_succ]
      split
      · exact ih (i + 1)
      · intro h
        cases h

/-- The search comes to the first number that is free. -/
theorem genloop_first {fuel i : Nat} {name : Bytes}
    (h : genloop out parts next fuel i = .ok name) :
    ∃ k, i ≤ k ∧ name = numbered out next k ∧ name ∉ parts.map Part.name ∧
      ∀ j, i ≤ j → j < k → numbered out next j ∈ parts.map Part.name := by
  induction fuel generalizing i with
  | zero => exact nomatch h
  | succ fuel ih =>
      rw [genloop_succ] at h
      split at h
      · rename_i htaken
        obtain ⟨k, hik, hname, hfree, hbefore⟩ := ih h
        refine ⟨k, by omega, hname, hfree, fun j hij hjk => ?_⟩
        rcases Nat.eq_or_lt_of_le hij with rfl | hlt
        · exact haspartname_iff.1 htaken
        · exact hbefore j hlt hjk
      · rename_i hfree
        obtain rfl := Except.ok.inj h
        exact ⟨i, Nat.le_refl i, rfl, fun hmem => hfree (haspartname_iff.2 hmem),
          fun j hij hji => by omega⟩

/-- Where some numbered name fits and is free, the search comes to such a one. -/
theorem genloop_fits (htext : out.Text next) {k : Nat}
    (hfits : (fullName next k).length < NAMELEN)
    (hfree : fullName next k ∉ parts.map Part.name) :
    ∃ fuel j, j ≤ k ∧ genloop out parts next fuel 0 = .ok (fullName next j) := by
  have hkfree : haspartname parts (numbered out next k) = false := by
    rw [numbered_of_fits htext hfits, Bool.eq_false_iff]
    exact fun h => hfree (haspartname_iff.1 h)
  have hsome : ∃ j, haspartname parts (numbered out next j) = false := ⟨k, hkfree⟩
  have hle : Nat.find hsome ≤ k := Nat.find_min' hsome hkfree
  refine ⟨Nat.find hsome + 1, Nat.find hsome, hle, ?_⟩
  rw [← numbered_of_fits htext (Nat.lt_of_le_of_lt (length_fullName_le hle) hfits)]
  refine genloop_eq (Nat.find_spec hsome) _ 0 (Nat.zero_le _) (by omega) ?_
  intro j _ hj
  exact Bool.of_not_eq_false (Nat.find_min hsome hj)

theorem partgenname_taken (h : first ∈ parts.map Part.name) (fuel : Nat) :
    partgenname out fuel parts first next = genloop out parts next fuel 0 :=
  (partgenname_eq parts fuel first next).trans (if_pos (haspartname_iff.2 h))

theorem partgenname_free (h : first ∉ parts.map Part.name) (fuel : Nat) :
    partgenname out fuel parts first next = .ok (out.print NAMELEN first) :=
  (partgenname_eq parts fuel first next).trans
    (if_neg fun htaken => h (haspartname_iff.1 htaken))

/-- The search ends with a whole new name, or an error that says that the name is too
long, exactly when there is a name that fits. -/
theorem generated_iff (out : Seprint) (parts : List Part) (first next : Bytes) :
    (∃ fuel, Generated (parts.map Part.name) first next
      (partgenname out fuel parts first next)) ↔
      NameFits out (parts.map Part.name) first next := by
  unfold NameFits
  split
  · rename_i htaken
    simp only [partgenname_taken htaken]
    constructor
    · rintro ⟨fuel, h⟩
      cases hrun : genloop out parts next fuel 0 with
      | error e =>
          rw [hrun] at h
          exact absurd (hrun.trans (congrArg _ h)) (genloop_ne_error fuel 0 _)
      | ok name =>
          rw [hrun] at h
          rcases h.whole with rfl | ⟨i, rfl⟩
          · exact absurd htaken h.free
          · obtain ⟨k, -, hname, -⟩ := genloop_first hrun
            exact ⟨out.text_next (hname ▸ text_numbered next k), i, h.fits, h.free⟩
    · rintro ⟨htext, k, hfits, hfree⟩
      obtain ⟨fuel, j, hjk, hrun⟩ := genloop_fits htext hfits hfree
      refine ⟨fuel, ?_⟩
      rw [hrun]
      obtain ⟨-, -, -, hnew, -⟩ := genloop_first hrun
      exact
        { whole := .inr ⟨j, rfl⟩
          fits := Nat.lt_of_le_of_lt (length_fullName_le hjk) hfits
          free := hnew }
  · rename_i habsent
    simp only [partgenname_free habsent]
    constructor
    · rintro ⟨-, h⟩
      rcases h.whole with hfirst | ⟨i, hnext⟩
      · left
        have htext := out.text NAMELEN first
        rw [hfirst] at htext
        exact ⟨htext, hfirst ▸ h.fits⟩
      · exact .inr ⟨i, hnext, h.free⟩
    · rintro (⟨htext, hshort⟩ | ⟨i, hnext, hfree⟩)
      · refine ⟨0, ?_⟩
        rw [out.whole NAMELEN first htext hshort]
        exact ⟨.inl rfl, hshort, habsent⟩
      · exact ⟨0, .inr ⟨i, hnext⟩, out.print_length first, hfree⟩

theorem fullName_inj {i j : Nat} (h : fullName next i = fullName next j) : i = j := by
  have hdigits : ascii (toString i) = ascii (toString j) := List.append_cancel_left h
  rw [ascii_digits, ascii_digits] at hdigits
  -- A digit is read off its byte.
  have hbyte : ∀ n, (Nat.toDigits 10 n).map (fun c => Char.ofNat c.toNat.toUInt8.toNat) =
      Nat.toDigits 10 n := by
    intro n
    refine (List.map_congr_left fun c hc => ?_).trans (List.map_id _)
    have hrange := digit_toNat hc
    rw [Nat.toUInt8, UInt8.toNat_ofNat', Nat.mod_eq_of_lt (by omega), Char.ofNat_toNat, id]
  have hchars := congrArg (List.map fun b : UInt8 => Char.ofNat b.toNat) hdigits
  rw [List.map_map, List.map_map] at hchars
  have heq : Nat.toDigits 10 i = Nat.toDigits 10 j :=
    (hbyte i).symm.trans (hchars.trans (hbyte j))
  rw [← Nat.ofDigitChars_ten_toDigits (n := i), heq, Nat.ofDigitChars_ten_toDigits]

/-- In a table with fewer parts than there are numbers that fit, a name fits. -/
theorem nameFits_of_few {names : List Bytes} (hfirst : out.Text first)
    (hshort : first.length < NAMELEN) (hnext : out.Text next) (hroom : next.length ≤ 29)
    (hfew : names.length < 10 ^ (30 - next.length)) : NameFits out names first next := by
  unfold NameFits
  split
  · refine ⟨hnext, ?_⟩
    by_contra hnone
    rw [not_exists] at hnone
    have htaken : ((List.range (10 ^ (30 - next.length))).map (fullName next)) ⊆ names := by
      intro name hname
      obtain ⟨i, hi, rfl⟩ := List.mem_map.1 hname
      by_contra hfree
      refine hnone i ⟨?_, hfree⟩
      have hdigits : (toString i).length ≤ 30 - next.length :=
        (Nat.length_repr_le_iff (by omega)).2 (List.mem_range.1 hi)
      rw [length_fullName, NAMELEN]
      omega
    have hnodup : ((List.range (10 ^ (30 - next.length))).map (fullName next)).Nodup :=
      List.nodup_range.map fun _ _ h => fullName_inj h
    have hlen := (hnodup.subperm htaken).length_le
    rw [List.length_map, List.length_range] at hlen
    omega
  · exact .inl ⟨hfirst, hshort⟩

end

/-! ## The names of a scan -/

/-- A name that is not taken, while what is left of it is. -/
def Clashes (out : Seprint) (names : List Bytes) (f : Bytes) : Prop :=
  f ∉ names ∧ out.print NAMELEN f ∈ names

/-- What the next part is called when `f` is asked for. -/
def Gets (out : Seprint) (names : List Bytes) (f name : Bytes) : Prop :=
  if f ∈ names then
    name ∉ names ∧
      ∃ i, name = numbered out f i ∧ ∀ j < i, numbered out f j ∈ names
  else name = out.print NAMELEN f

/-- Of the names `fs`, asked for one after the other, none clashes. -/
def NamesNew (out : Seprint) : List Bytes → List Bytes → Prop
  | _, [] => True
  | names, f :: fs =>
      ¬ Clashes out names f ∧
        ∀ name, Gets out names f name → NamesNew out (names ++ [name]) fs

/-- The name that a line of a table asks for. -/
def lineName (env : Env) (line : Bytes) : Bytes := (env.tokenize line).getD 1 []

/-- The names that the lines of a disk ask for, in the order of its MBR `p`. -/
def lineNames (env : Env) (p : Bytes) : List Bytes :=
  ((mbrUsed p).map fun i => (entryTable env p i).map (lineName env)).flatten

section
variable {env : Env} {data : Part} {size : Int} {parts parts' : List Part}

def Distinct (parts : List Part) : Prop := (parts.map Part.name).Nodup

theorem gets_of_partgenname {out : Seprint} {fuel : Nat} {f name : Bytes}
    (h : partgenname out fuel parts f f = .ok name) :
    Gets out (parts.map Part.name) f name := by
  unfold Gets
  split
  · rename_i htaken
    rw [partgenname_taken htaken] at h
    obtain ⟨k, -, hname, hfree, hbefore⟩ := genloop_first h
    exact ⟨hfree, k, hname, fun j hj => hbefore j (Nat.zero_le j) hj⟩
  · rename_i habsent
    rw [partgenname_free habsent] at h
    exact (Except.ok.inj h).symm

theorem Gets.unique {out : Seprint} {names : List Bytes} {f a b : Bytes}
    (ha : Gets out names f a) (hb : Gets out names f b) : a = b := by
  unfold Gets at ha hb
  split at ha
  · rename_i htaken
    rw [if_pos htaken] at hb
    obtain ⟨hafree, i, rfl, hi⟩ := ha
    obtain ⟨hbfree, j, rfl, hj⟩ := hb
    have hij : i = j := by
      by_contra hne
      rcases Nat.lt_or_gt_of_ne hne with hlt | hlt
      · exact hafree (hj i hlt)
      · exact hbfree (hi j hlt)
    rw [hij]
  · rename_i habsent
    rw [if_neg habsent] at hb
    rw [ha, hb]

/-- The next name is new unless it is a cut one that clashes. -/
theorem Gets.new_iff {out : Seprint} {names : List Bytes} {f name : Bytes}
    (h : Gets out names f name) : name ∉ names ↔ ¬ Clashes out names f := by
  unfold Gets at h
  split at h
  · rename_i htaken
    exact ⟨fun _ hclash => hclash.1 htaken, fun _ => h.1⟩
  · rename_i habsent
    rw [h]
    exact ⟨fun hfree hclash => hfree hclash.2, fun hno hcut => hno ⟨habsent, hcut⟩⟩

theorem distinct_snoc (parts : List Part) (p : Part) :
    Distinct (parts ++ [p]) ↔ Distinct parts ∧ p.name ∉ parts.map Part.name := by
  unfold Distinct
  rw [List.map_append, List.map_singleton, List.nodup_append]
  simp only [List.nodup_cons, List.not_mem_nil, not_false_eq_true, List.nodup_nil, and_self,
    true_and, List.mem_singleton, forall_eq]
  exact and_congr_right fun _ =>
    ⟨fun h hmem => h _ hmem rfl, fun h a ha heq => h (heq ▸ ha)⟩

/-- The names are distinct, and the names that are still asked for do not clash. -/
def Fresh (env : Env) (parts : List Part) (fs : List Bytes) : Prop :=
  Distinct parts ∧ NamesNew env.seprint (parts.map Part.name) fs

theorem fresh_nil (env : Env) (parts : List Part) : Fresh env parts [] ↔ Distinct parts :=
  and_iff_left trivial

theorem addLine_fresh {i : Nat} {pp : Part} {line : Bytes} {fs : List Bytes}
    (h : addLine env i pp parts line = .ok parts') :
    Fresh env parts (lineName env line :: fs) ↔ Fresh env parts' fs := by
  obtain ⟨f1, f2, f3, name, htok, -, hname, -, rfl⟩ := addLine_eq_ok.1 h
  have hline : lineName env line = f1 := by
    unfold lineName
    rw [htok]
    rfl
  have hgets := gets_of_partgenname hname
  unfold Fresh
  rw [hline, NamesNew, distinct_snoc, List.map_append, List.map_singleton, and_assoc]
  refine and_congr_right fun _ => and_congr hgets.new_iff.symm ⟨fun hall => ?_, ?_⟩
  · exact hall _ hgets
  · intro hnew other hother
    rw [hother.unique hgets]
    exact hnew

theorem lines_fresh {i : Nat} {pp : Part} {lines : List Bytes} {fs : List Bytes}
    (h : lines.foldlM (addLine env i pp) parts = .ok parts') :
    Fresh env parts (lines.map (lineName env) ++ fs) ↔ Fresh env parts' fs := by
  induction lines generalizing parts with
  | nil => rw [Except.ok.inj h, List.map_nil, List.nil_append]
  | cons line lines ih =>
      rw [List.foldlM_cons, bind_eq_ok] at h
      obtain ⟨parts1, hstep, hrest⟩ := h
      rw [List.map_cons, List.cons_append, addLine_fresh hstep, ih hrest]

/-- The names that the lines of the parts `back` ask for. -/
def partNames (env : Env) (back : List Part) : List Bytes :=
  (back.map fun q => (partTable env q).map (lineName env)).flatten

private theorem tables_fresh_from {back : List Part} (front subs : List Part)
    (hback : ∀ q ∈ back, q.e = q.s + q.size ∧ q.size < 2 ^ 41)
    (h : (List.range' (front.length + 1) back.length).foldlM (addTable env)
      (data :: (front ++ back) ++ subs) = .ok parts) :
    Fresh env (data :: (front ++ back) ++ subs) (partNames env back) ↔
      Distinct parts := by
  induction back generalizing front subs with
  | nil =>
      rw [← Except.ok.inj h]
      exact fresh_nil env _
  | cons q back ih =>
      rw [List.length_cons, List.range'_succ, List.foldlM_cons, bind_eq_ok] at h
      obtain ⟨parts1, hstep, hrest⟩ := h
      obtain ⟨new, rfl, -, -⟩ := addTable_run (hback q List.mem_cons_self) hstep
      have hget : (data :: (front ++ q :: back) ++ subs)[front.length + 1]? = some q := by
        simp
      have hshape : data :: (front ++ q :: back) ++ subs ++ new =
          data :: ((front ++ [q]) ++ back) ++ (subs ++ new) := by
        simp
      have hpos : front.length + 1 + 1 = (front ++ [q]).length + 1 := by simp
      rw [partNames, List.map_cons, List.flatten_cons]
      refine (lines_fresh (addTable_eq_ok hget hstep)).trans ?_
      rw [hshape] at hrest ⊢
      rw [hpos] at hrest
      exact ih (front ++ [q]) (subs ++ new)
        (fun r hr => hback r (List.mem_cons_of_mem _ hr)) hrest

/-- After the second pass the names are distinct exactly when they were and the lines ask
for none that clashes. -/
theorem tables_fresh {mbr : List Part}
    (hmbr : ∀ q ∈ mbr, q.e = q.s + q.size ∧ q.size < 2 ^ 41)
    (h : (List.range' 1 mbr.length).foldlM (addTable env) (data :: mbr) = .ok parts) :
    Fresh env (data :: mbr) (partNames env mbr) ↔ Distinct parts := by
  have hrun := @tables_fresh_from env data parts mbr [] [] hmbr (by simpa using h)
  simpa using hrun

/-! ### The parts of the MBR -/

theorem genloop_more {out : Seprint} {fuel fuel' i : Nat} {next name : Bytes}
    (h : genloop out parts next fuel i = .ok name) (hle : fuel ≤ fuel') :
    genloop out parts next fuel' i = .ok name := by
  induction fuel generalizing fuel' i with
  | zero => exact nomatch h
  | succ fuel ih =>
      obtain ⟨k, rfl⟩ := Nat.exists_eq_add_of_le hle
      rw [Nat.add_right_comm]
      rw [genloop_succ] at h ⊢
      split at h
      · rename_i htaken
        rw [if_pos htaken]
        exact ih h (Nat.le_add_right _ _)
      · rename_i hfree
        rw [if_neg hfree]
        exact h

theorem partgenname_more {out : Seprint} {fuel fuel' : Nat} {first next name : Bytes}
    (h : partgenname out fuel parts first next = .ok name) (hle : fuel ≤ fuel') :
    partgenname out fuel' parts first next = .ok name := by
  rw [partgenname_eq] at h ⊢
  split at h
  · rename_i htaken
    rw [if_pos htaken]
    exact genloop_more h hle
  · rename_i hfree
    rw [if_neg hfree]
    exact h

theorem partname_more {out : Seprint} {fuel fuel' typ i : Nat} {name : Bytes}
    (h : partname out fuel parts typ i = .ok name) (hle : fuel ≤ fuel') :
    partname out fuel' parts typ i = .ok name := by
  rw [partname_kind] at h ⊢
  cases hkind : kindOf typ with
  | plan9 =>
      rw [hkind] at h
      exact partgenname_more h hle
  | dos =>
      rw [hkind] at h
      exact partgenname_more h hle
  | other =>
      rw [hkind] at h
      exact h

/-- The names of the used entries are distinct. -/
theorem mbrName_inj {p : Bytes} {i j : Nat} (hi : i < 4) (hj : j < 4)
    (h : mbrName p i = mbrName p j) : i = j := by
  obtain ⟨hkind, hplace⟩ :=
    seriesName_inj _ _ _ (seriesPlace_lt p hi) _ (seriesPlace_lt p hj) h
  unfold seriesPlace at hplace
  rw [← hkind] at hplace
  cases hk : kindOf (mbrTyp p i) with
  | other =>
      rw [hk] at hplace
      exact hplace
  | plan9 =>
      rw [hk] at hplace hkind
      exact Nat.count_injective hk hkind.symm hplace
  | dos =>
      rw [hk] at hplace hkind
      exact Nat.count_injective hk hkind.symm hplace

theorem namesBefore_nodup (p : Bytes) : (namesBefore p 4).Nodup := by
  have hused : ∀ i ∈ (List.range 4).filter (fun j => mbrTyp p j ≠ 0), i < 4 :=
    fun i hi => List.mem_range.1 (List.mem_of_mem_filter hi)
  refine List.nodup_cons.2 ⟨fun hdata => ?_, ?_⟩
  · obtain ⟨i, hi, hname⟩ := List.mem_map.1 hdata
    exact seriesName_ne_data _ _ (seriesPlace_lt p (hused i hi)) hname
  · refine List.Nodup.map_on (fun i hi j hj h => ?_) (List.nodup_range.filter _)
    exact mbrName_inj (hused i hi) (hused j hj) h

theorem namesBefore_succ (p : Bytes) (i : Nat) :
    namesBefore p (i + 1) =
      namesBefore p i ++ if mbrTyp p i ≠ 0 then [mbrName p i] else [] := by
  unfold namesBefore
  rw [List.range_succ, List.filter_append, List.map_append, List.cons_append]
  congr 2
  by_cases hused : mbrTyp p i ≠ 0
  · rw [if_pos hused, List.filter_cons_of_pos (by simpa using hused), List.filter_nil,
      List.map_singleton]
  · rw [if_neg hused, List.filter_cons_of_neg (by simpa using hused), List.filter_nil,
      List.map_nil]

/-- The names that the first pass gives. -/
theorem mbr_names {p : Bytes} (hdata : data.name = ascii "data")
    (h : (List.range 4).foldlM (addMbr env size p) [data] = .ok parts) :
    parts.map Part.name = namesBefore p 4 := by
  refine foldlM_ok_at
    (motive := fun done parts => parts.map Part.name = namesBefore p done.length) _ ?_ ?_ h
  · intro done i rest parts parts' hall hnames hstep
    obtain ⟨hi, rfl⟩ := range_split hall
    rw [List.length_range] at hnames
    rw [List.length_append, List.length_range, List.length_singleton, namesBefore_succ,
      ← hnames]
    obtain ⟨-, ⟨hzero, rfl⟩ | ⟨hused, name, hname, -, rfl⟩⟩ := addMbr_eq_ok.1 hstep
    · rw [if_neg (not_not.2 hzero), List.append_nil]
    · have hmore := partname_more hname (Nat.le_max_left env.fuel 4)
      rw [partname_eq _ hi (Nat.le_max_right _ _) hnames] at hmore
      rw [if_pos hused, Except.ok.inj hmore, List.map_append]
      rfl
  · show [data.name] = _
    rw [hdata]
    rfl

/-- The names of a scan that returned are distinct exactly when no line of a table asks for
a name that clashes. -/
theorem nodup_iff {p : Bytes} {tbl : List Part} (hread : env.read 0 = .ok p)
    (h : partinit env (partdata env.eve size) size = .ok tbl) :
    Distinct tbl ↔ NamesNew env.seprint (namesBefore p 4) (lineNames env p) := by
  simp only [partinit, bind_eq_ok] at h
  obtain ⟨p', hread', h⟩ := h
  obtain rfl := Except.ok.inj ((readSector_eq_ok.1 hread').1.symm.trans hread)
  split at h
  · cases h
  · rw [bind_eq_ok] at h
    obtain ⟨parts, hpass, htables⟩ := h
    have hnames := mbr_names rfl hpass
    obtain ⟨mbr, rfl, hmbr⟩ := mbr_run hpass
    have hfirst : Distinct (partdata env.eve size :: mbr) := by
      unfold Distinct
      rw [hnames]
      exact namesBefore_nodup p'
    have hlines : partNames env mbr = lineNames env p' :=
      congrArg List.flatten (hmbr.map_row fun r =>
        (tableOf env r.1 r.2.1 r.2.2.2).map (lineName env))
    rw [← tables_fresh hmbr.sizes (by simpa using htables), Fresh, and_iff_right hfirst,
      hnames, hlines]

end

/-! ## The two together -/

/-- **New names.**  A name is generated, or refused, exactly when one fits; and in a scan
that returned all names are distinct exactly when none that a table line asks for
clashes. -/
theorem names_new_iff (env : Env) (size : Int) (parts : List Part) (first next : Bytes) :
    ((∃ fuel, Generated (parts.map Part.name) first next
        (partgenname env.seprint fuel parts first next)) ↔
      NameFits env.seprint (parts.map Part.name) first next) ∧
    ∀ p tbl, env.read 0 = .ok p → partinit env (partdata env.eve size) size = .ok tbl →
      (Distinct tbl ↔ NamesNew env.seprint (namesBefore p 4) (lineNames env p)) :=
  ⟨generated_iff env.seprint parts first next, fun _ _ hread h => nodup_iff hread h⟩

/-- A Plan 9 part with a table of two lines. -/
def twolines (text : String) : Env :=
  sampleEnv (mbrSector [(0x39, 1, 100)]) (textSector text)

/-- Two lines of one name: the second part is called `fs.0`. -/
theorem twolines_new :
    (∃ fuel, Generated [ascii "data"] (ascii "data") (ascii "data")
      (partgenname sampleSeprint fuel [sampleData] (ascii "data") (ascii "data"))) ∧
    ∃ tbl, partinit (twolines "part fs 2 10\npart fs 20 30\n") sampleData (4096 * 512) =
        .ok tbl ∧
      NamesNew sampleSeprint [ascii "data", ascii "plan9"] [ascii "fs", ascii "fs"] := by
  have hrun : partinit (twolines "part fs 2 10\npart fs 20 30\n") sampleData (4096 * 512) =
      .ok [sampleData, samplePart 1 0x39 "plan9" 1 101 100, samplePart 2 0 "fs" 3 111 8,
        samplePart 3 0 "fs.0" 21 131 10] := by
    decide +kernel
  have hnew := names_new_iff (twolines "part fs 2 10\npart fs 20 30\n") (4096 * 512)
    [sampleData] (ascii "data") (ascii "data")
  have hbefore : namesBefore (mbrSector [(0x39, 1, 100)]) 4 =
      [ascii "data", ascii "plan9"] := by
    decide +kernel
  have hasked : lineNames (twolines "part fs 2 10\npart fs 20 30\n")
      (mbrSector [(0x39, 1, 100)]) = [ascii "fs", ascii "fs"] := by
    decide +kernel
  refine ⟨hnew.1.2 ?_, _, hrun, ?_⟩
  · unfold NameFits
    rw [if_pos (by decide)]
    exact ⟨Seprint.text_printable _ _ (by decide), 0, by decide, by decide⟩
  · have hread : (twolines "part fs 2 10\npart fs 20 30\n").read 0 =
        .ok (mbrSector [(0x39, 1, 100)]) :=
      congrArg Except.ok (if_pos rfl)
    have hscan := hnew.2 _ _ hread hrun
    rw [hbefore, hasked] at hscan
    refine hscan.1 ?_
    unfold Distinct
    decide

/-- A name of 31 bytes. -/
def longname : String := "abcdefghijklmnopqrstuvwxyz01234"

theorem longname_hangs (fuel i : Nat) :
    genloop sampleSeprint [{ sampleData with name := ascii longname }] (ascii longname) fuel
      i = .error .hang := by
  induction fuel generalizing i with
  | zero => rfl
  | succ fuel ih =>
      have hcut : numbered sampleSeprint (ascii longname) i = ascii longname := by
        have hfront : sampleSeprint.print NAMELEN (ascii longname ++ ascii ".") =
            ascii longname := by
          decide
        have hlong : NAMELEN - (ascii longname).length = 1 := by decide
        have hback := sampleSeprint.room 1 (ascii (toString i)) Nat.one_pos
        unfold numbered
        simp only [hfront, hlong]
        rw [List.eq_nil_of_length_eq_zero (Nat.lt_one_iff.1 hback), List.append_nil]
      rw [genloop_succ, hcut, if_pos (by decide)]
      exact ih (i + 1)

/-- The search for another name than one of 31 bytes does not end; and two names of 32
bytes are cut to one. -/
theorem longnames_not_new :
    (¬ ∀ out parts first next, Distinct parts → (∀ p ∈ parts, p.name.length ≤ 31) →
      ∃ fuel, Generated (parts.map Part.name) first next
        (partgenname out fuel parts first next)) ∧
    ¬ ∀ env size tbl, partinit env (partdata env.eve size) size = .ok tbl →
      Distinct tbl := by
  constructor
  · intro hall
    obtain ⟨fuel, h⟩ := hall sampleSeprint [{ sampleData with name := ascii longname }]
      (ascii longname) (ascii longname) (List.nodup_singleton _) (by decide)
    rw [partgenname_taken (by decide), longname_hangs] at h
    exact nomatch h
  · intro hall
    have hrun : partinit (twolines ("part abcdefghijklmnopqrstuvwxyz012345 2 10\n" ++
          "part abcdefghijklmnopqrstuvwxyz012346 20 30\n"))
        (partdata (ascii "inferno") (4096 * 512)) (4096 * 512) =
        .ok [sampleData, samplePart 1 0x39 "plan9" 1 101 100,
          samplePart 2 0 longname 3 111 8, samplePart 3 0 longname 21 131 10] := by
      decide +kernel
    exact absurd (hall _ _ _ hrun) (by unfold Distinct; decide)

end Kirkwood.Ports.PartTable
