import Kirkwood.Ports.BlockStoreIo

/-!
# Which block-store transfers are faithful

`WriteSpec` and `ReadSpec` say what a transfer promises its caller.
`io_write_faithful_iff` and `io_read_faithful_iff` decide, for every request,
whether `io` keeps the promise with every device that does what the driver
relies on, every disk content and every buffer.

One direction runs `io` forwards.  For the other, an unfaithful request is
refuted with one device and one content: `Sabotage` trashes the disk when it is
handed a range it need not serve, and `Strict` refuses such a range.
-/

namespace Kirkwood.Ports.BlockStoreIo

open Kirkwood.Verified.CInt
open Kirkwood.Verified.Align
open Kirkwood.Verified.ByteMem
open Kirkwood.Verified.Outcome
open Kirkwood.Ports.BlockStore

-- The derived quantities are used through their lemmas only.
attribute [local irreducible] xfer

/-! ## The range handed to the device -/

theorem reqLen_range {d : Store} {p : Part} {n off : Int}
    (hp : InsideDisk d p) (hr : Request n off) :
    0 ≤ reqLen p n off ∧ reqLen p n off ≤ n ∧
      reqStart p off + reqLen p n off ≤ d.size := by
  have := hp.start
  have := hp.size
  have := hp.stop
  have := hr.start
  have := hr.len
  unfold reqLen reqStart
  omega

/-- A request reaches as many bytes as the partition holds there. -/
theorem reqLen_eq {d : Store} {p : Part} {n off : Int} (hp : InsideDisk d p)
    (hr : Request n off) : reqLen p n off = min n (max 0 (p.size - off)) := by
  have := hp.size
  have := hr.start
  have := hr.len
  unfold reqLen
  omega

section Range

variable {d : Store} {p : Part} {k : Nat} {n off : Int}
  (hd : ReadyStore d k) (hp : InsideDisk d p) (hr : Request n off)

include hd

theorem block_dvd_word : d.block ∣ 2 ^ 32 := by
  rw [block_eq hd]
  exact pow_dvd_pow 2 (Nat.le_of_lt hd.width)

theorem block_dvd_offsets : d.block ∣ 2 ^ 63 := by
  rw [block_eq hd]
  exact pow_dvd_pow 2 (by have := hd.width; omega)

/-- A block below 2 GiB is at most 1 GiB. -/
theorem block_half (hlt : d.block < 2 ^ 31) : d.block ≤ 2 ^ 30 := by
  rw [block_eq hd] at hlt ⊢
  have hk : k < 31 := by
    by_contra hk
    have h31 : (2 : Int) ^ 31 ≤ 2 ^ k := by
      exact_mod_cast Nat.pow_le_pow_right (by decide) (by omega)
    omega
  exact_mod_cast Nat.pow_le_pow_right (by decide) (by omega)

include hp hr

theorem xs_dvd : d.block ∣ (xfer d p n off).xs := by
  rw [xfer_xs hd hp hr]
  have hword : d.block ∣ reqStart p off - reqStart p off % 2 ^ 32 :=
    Int.dvd_trans (block_dvd_word hd) Int.dvd_self_sub_emod
  have hdown : d.block ∣ reqStart p off - reqStart p off % d.block :=
    Int.dvd_self_sub_emod
  have hsub := Int.dvd_sub hdown hword
  have heq : reqStart p off - reqStart p off % d.block -
      (reqStart p off - reqStart p off % 2 ^ 32) =
      reqStart p off % 2 ^ 32 - reqStart p off % d.block := by omega
  rwa [heq] at hsub

theorem xs_range :
    0 ≤ (xfer d p n off).xs ∧ (xfer d p n off).xs ≤ reqStart p off := by
  rw [xfer_xs hd hp hr]
  have hs := reqStart_range hp hr
  have hB := block_pos hd
  have hmod := (reqStart_mod_range hd p off).1
  have hlow : reqStart p off % 2 ^ 32 % d.block = reqStart p off % d.block :=
    Int.emod_emod_of_dvd _ (block_dvd_word hd)
  have hle : reqStart p off % 2 ^ 32 % d.block ≤ reqStart p off % 2 ^ 32 := by
    have := Int.mul_ediv_add_emod (reqStart p off % 2 ^ 32) d.block
    have hq : 0 ≤ reqStart p off % 2 ^ 32 / d.block :=
      Int.ediv_nonneg (Int.emod_nonneg _ (by decide)) (by omega)
    have := Int.mul_nonneg (Int.le_of_lt hB) hq
    omega
  omega

/-- The device's range ends where the request's does, rounded up, less what the
mask dropped from the start. -/
theorem xs_add_roundUp (m : Int) :
    (xfer d p n off).xs + roundUp d.block (m + reqStart p off % d.block) =
      roundUp d.block (reqStart p off + m) -
        (reqStart p off - reqStart p off % 2 ^ 32) := by
  have hword : d.block ∣ reqStart p off - reqStart p off % 2 ^ 32 :=
    Int.dvd_trans (block_dvd_word hd) Int.dvd_self_sub_emod
  have hxs := roundUp_add_of_dvd (m + reqStart p off % d.block) (xs_dvd hd hp hr)
  have hdrop := roundUp_add_of_dvd (m + reqStart p off % 2 ^ 32) hword
  rw [xfer_xs hd hp hr] at hxs ⊢
  have h1 : m + reqStart p off % d.block +
      (reqStart p off % 2 ^ 32 - reqStart p off % d.block) =
      m + reqStart p off % 2 ^ 32 := by omega
  have h2 : m + reqStart p off % 2 ^ 32 +
      (reqStart p off - reqStart p off % 2 ^ 32) = reqStart p off + m := by
    omega
  rw [h1] at hxs
  rw [h2] at hdrop
  omega

/-- A clamped length whose rounding fits a `long` gives an aligned range inside
the disk. -/
theorem xfer_inDisk {m : Int} (hm : 0 ≤ m)
    (hstop : reqStart p off + m ≤ d.size) :
    InDisk d (roundUp d.block (m + reqStart p off % d.block))
      (xfer d p n off).xs := by
  have hB := block_pos hd
  have hs := reqStart_range hp hr
  have hmod := (reqStart_mod_range hd p off).1
  have hadd := xs_add_roundUp hd hp hr m
  have hup := roundUp_le hB hd.sizeDvd hstop
  have hge := le_roundUp hB (m + reqStart p off % d.block)
  have hword : reqStart p off % 2 ^ 32 ≤ reqStart p off := by omega
  exact
    { len := by omega
      start := (xs_range hd hp hr).1
      stop := by omega
      lenDvd := dvd_roundUp _ _
      startDvd := xs_dvd hd hp hr }

end Range

/-! ## Running `io` -/

/-- The two paths, once the request is accepted. -/
theorem io_accepted {d : Store} {k : Nat} {n off : Int} (hd : ReadyStore d k)
    (hr : Request n off) (dio : DeviceIo) (p : Part) (w : Bool) (st : IoState)
    (hal : w = true → d.block ∣ off ∧ d.block ∣ n) :
    io d dio p w n off st =
      if (xfer d p n off).xs ≠ (xfer d p n off).s ∨
          (xfer d p n off).xn ≠ (xfer d p n off).n then
        ioBounce dio w (xfer d p n off) st
      else ioDirect dio w (xfer d p n off) st := by
  have hneg : ¬(off < 0 ∨ n < 0) := by
    have := hr.start
    have := hr.len
    omega
  have hmis : ¬(w = true ∧ (band off d.alignmask ≠ 0 ∨
      band n d.alignmask ≠ 0)) := by
    rintro ⟨hw, hbad⟩
    obtain ⟨hoff, hn⟩ := hal hw
    rw [band_alignmask hd, band_alignmask hd] at hbad
    rw [Int.dvd_iff_emod_eq_zero] at hoff hn
    exact hbad.elim (fun h => h hoff) (fun h => h hn)
  simp only [io, hd.ready, if_false, hneg, hmis]

/-- A misaligned write is refused before the device is called. -/
theorem io_write_misaligned {d : Store} {k : Nat} {n off : Int}
    (hd : ReadyStore d k) (hr : Request n off) (dio : DeviceIo) (p : Part)
    (st : IoState) (hmis : ¬(d.block ∣ off ∧ d.block ∣ n)) :
    io d dio p true n off st = .error (.error Ebadalign) st := by
  have hneg : ¬(off < 0 ∨ n < 0) := by
    have := hr.start
    have := hr.len
    omega
  have hbad : band off d.alignmask ≠ 0 ∨ band n d.alignmask ≠ 0 := by
    rw [band_alignmask hd, band_alignmask hd, ne_eq, ne_eq,
      ← Int.dvd_iff_emod_eq_zero, ← Int.dvd_iff_emod_eq_zero]
    exact not_and_or.mp hmis
  simp only [io, hd.ready, if_false, hneg, hbad, and_self, if_true]

/-- A device that is handed no bytes changes nothing. -/
theorem DeviceIo.Faithful.empty {d : Store} {dio : DeviceIo}
    (hf : dio.Faithful d) (w : Bool) (buf : Bytes) (disk : Mem) {off : Int}
    (hin : InDisk d 0 off) : dio w buf 0 off disk = (.ok 0, buf, disk) := by
  cases w with
  | false => simpa [slice] using hf.read buf 0 off disk hin (by omega)
  | true => simpa using hf.write buf 0 off disk hin (by omega)

/-- A copy of `k` bytes from offset `o` that stays inside both buffers. -/
theorem memmove_eq {dst src : Bytes} {o n : Int} {j k : Nat} (ho : ulong o = j)
    (hn : ulong n = k) (hsrc : j + k ≤ src.length) (hdst : k ≤ dst.length) :
    memmove dst src o n = .ok ((src.drop j).take k ++ dst.drop k) := by
  have hin : ulong o + ulong n ≤ src.length ∧ ulong n ≤ dst.length := by
    omega
  unfold memmove
  split
  · have hk : k = 0 := by omega
    simp [hk]
  · rw [ho, hn, Int.toNat_natCast, Int.toNat_natCast]

/-- The bounce path after a device call that returned. -/
theorem ioBounce_eq {dio : DeviceIo} {w : Bool} {x : Xfer} {st : IoState}
    {cnt : Int} {buf buf' : Bytes} {disk : Mem}
    (hdev : dio w (smalloc x.xn) x.xn x.xs st.disk = (.ok cnt, buf, disk))
    (hmove : memmove st.buf buf (x.s - x.xs) (bounceCount x cnt) = .ok buf') :
    ioBounce dio w x st = .ok (bounceCount x cnt)
      ⟨buf', disk, ⟨w, x.xn, x.xs⟩ :: st.calls⟩ := by
  simp only [ioBounce, hdev, hmove]

theorem ioBounce_error {dio : DeviceIo} {w : Bool} {x : Xfer} {st : IoState}
    {e : Exn} {buf : Bytes} {disk : Mem}
    (hdev : dio w (smalloc x.xn) x.xn x.xs st.disk = (.error e, buf, disk)) :
    ioBounce dio w x st = .error e
      ⟨st.buf, disk, ⟨w, x.xn, x.xs⟩ :: st.calls⟩ := by
  simp only [ioBounce, hdev]

theorem ioDirect_eq {dio : DeviceIo} {w : Bool} {x : Xfer} {st : IoState}
    {cnt : Int} {buf : Bytes} {disk : Mem}
    (hdev : dio w st.buf x.xn x.xs st.disk = (.ok cnt, buf, disk)) :
    ioDirect dio w x st = .ok cnt ⟨buf, disk, ⟨w, x.xn, x.xs⟩ :: st.calls⟩ := by
  simp only [ioDirect, hdev]

theorem ioDirect_error {dio : DeviceIo} {w : Bool} {x : Xfer} {st : IoState}
    {e : Exn} {buf : Bytes} {disk : Mem}
    (hdev : dio w st.buf x.xn x.xs st.disk = (.error e, buf, disk)) :
    ioDirect dio w x st = .error e
      ⟨buf, disk, ⟨w, x.xn, x.xs⟩ :: st.calls⟩ := by
  simp only [ioDirect, hdev]

/-- After a device call that returned, the bounce path returns with the device's
disk or makes a wild copy. -/
theorem ioBounce_returned {dio : DeviceIo} {w : Bool} {x : Xfer} {st : IoState}
    {cnt : Int} {buf : Bytes} {disk : Mem}
    (hdev : dio w (smalloc x.xn) x.xn x.xs st.disk = (.ok cnt, buf, disk)) :
    (∃ st', ioBounce dio w x st = .ok (bounceCount x cnt) st' ∧
        st'.disk = disk) ∨
      ∃ st', ioBounce dio w x st = .error .fault st' := by
  cases hmove : memmove st.buf buf (x.s - x.xs) (bounceCount x cnt) with
  | ok buf' => exact Or.inl ⟨_, ioBounce_eq hdev hmove, rfl⟩
  | error e =>
      have he : e = .fault := by
        unfold memmove at hmove
        split at hmove
        · exact absurd hmove (by simp)
        · split at hmove
          · exact absurd hmove (by simp)
          · exact (Except.error.inj hmove).symm
      right
      simp only [ioBounce, hdev, hmove, he]
      exact ⟨_, rfl⟩

/-- What 32-bit pointer arithmetic keeps of the bounce offset. -/
theorem ulong_bounce {d : Store} {p : Part} {k : Nat} {n off : Int}
    (hd : ReadyStore d k) (hp : InsideDisk d p) (hr : Request n off) :
    ulong ((xfer d p n off).s - (xfer d p n off).xs) =
      reqStart p off % d.block := by
  have hB := block_pos hd
  have hle := block_le hd
  obtain ⟨hmod, hmodLt⟩ := reqStart_mod_range hd p off
  rw [xfer_s hd hp hr, xfer_xs hd hp hr]
  unfold ulong
  omega

/-- A request whose rounded length vanishes hands the device no bytes and
delivers none. -/
theorem io_nothing {d : Store} {p : Part} {k : Nat} {n off : Int}
    (hd : ReadyStore d k) (hp : InsideDisk d p) (hr : Request n off)
    {dio : DeviceIo} (hf : dio.Faithful d) (w : Bool) (st : IoState)
    (hal : w = true → d.block ∣ off ∧ d.block ∣ n)
    (hn : 0 ≤ (xfer d p n off).n) (hxn : (xfer d p n off).xn = 0) :
    ∃ calls, io d dio p w n off st = .ok 0 ⟨st.buf, st.disk, calls⟩ := by
  have hxs := xs_range hd hp hr
  have hs := reqStart_range hp hr
  have hin : InDisk d 0 (xfer d p n off).xs :=
    { len := Int.le_refl 0
      start := hxs.1
      stop := by omega
      lenDvd := Int.dvd_zero _
      startDvd := xs_dvd hd hp hr }
  rw [io_accepted hd hr dio p w st hal]
  refine ⟨[⟨w, 0, (xfer d p n off).xs⟩] ++ st.calls, ?_⟩
  split
  · have hback : long (0 - ((xfer d p n off).s - (xfer d p n off).xs)) ≤ 0 := by
      have hB := block_pos hd
      have hle := block_le hd
      obtain ⟨hmod, hmodLt⟩ := reqStart_mod_range hd p off
      rw [xfer_s hd hp hr, xfer_xs hd hp hr]
      unfold long
      omega
    have hcount : bounceCount (xfer d p n off) 0 = 0 := by
      simp only [bounceCount]
      split <;> split <;> omega
    have hmove : memmove st.buf (smalloc 0)
        ((xfer d p n off).s - (xfer d p n off).xs)
        (bounceCount (xfer d p n off) 0) = .ok st.buf := by
      rw [hcount]
      exact if_pos rfl
    rw [ioBounce_eq (by rw [hxn]; exact hf.empty w _ st.disk hin) hmove, hcount,
      hxn]
    rfl
  · have hdev := hf.empty w st.buf st.disk hin
    simp only [ioDirect, hxn, hdev]
    rfl

/-- A request that reaches no byte of the partition, at an aligned place,
changes nothing. -/
theorem io_empty {d : Store} {p : Part} {k : Nat} {n off : Int}
    (hd : ReadyStore d k) (hp : InsideDisk d p) (hr : Request n off)
    {dio : DeviceIo} (hf : dio.Faithful d) (w : Bool) (st : IoState)
    (hal : w = true → d.block ∣ off ∧ d.block ∣ n)
    (hn : (xfer d p n off).n = 0) (hs : d.block ∣ reqStart p off) :
    ∃ calls, io d dio p w n off st = .ok 0 ⟨st.buf, st.disk, calls⟩ := by
  refine io_nothing hd hp hr hf w st hal (by omega) ?_
  have hzero : roundUp d.block 0 = 0 :=
    (roundUp_eq_self_iff (block_pos hd) 0).mpr (Int.dvd_zero _)
  rw [xfer_xn hd hp hr, hn, Int.dvd_iff_emod_eq_zero.mp hs, Int.add_zero, hzero]
  rfl

/-! ## Writes -/

/-- What a write of `n` bytes at `off` of partition `p` promises: the bytes of
the partition that the request reaches hold the caller's bytes, no other byte of
the disk and no byte of the buffer changes, and the count says how many were
stored.  A refusal before the device is called leaves the disk alone.  A wild
access keeps no promise. -/
def WriteSpec (p : Part) (n off : Int) (st : IoState) : IoResult → Prop
  | .ok cnt st' =>
      cnt = reqLen p n off ∧ st'.buf = st.buf ∧
      (∀ i : Nat, i < reqLen p n off →
        st.buf[i]? = some (st'.disk (reqStart p off + i))) ∧
      ∀ x, x < reqStart p off ∨ reqStart p off + reqLen p n off ≤ x →
        st'.disk x = st.disk x
  | .error (.error _) st' => st'.calls = st.calls → st'.disk = st.disk
  | .error _ _ => False

/-- The promise is kept with every faithful device, every disk content and
every buffer. -/
def WriteFaithful (d : Store) (p : Part) (n off : Int) : Prop :=
  ∀ dio : DeviceIo, dio.Faithful d → ∀ st : IoState, n ≤ st.buf.length →
    WriteSpec p n off st (io d dio p true n off st)

/-- The write requests that are refused as misaligned or need no bounce buffer
and no bit above the 32nd. -/
def WriteSafe (d : Store) (p : Part) (n off : Int) : Prop :=
  ¬(d.block ∣ off ∧ d.block ∣ n) ∨
  d.block ∣ reqStart p off ∧
    (off + n < 2 ^ 63 ∧ (reqLen p n off = 0 ∨
      reqStart p off < 2 ^ 32 ∧ d.block ∣ reqLen p n off) ∨
    2 ^ 63 ≤ off + n ∧ p.size < off ∧ 2 ^ 32 ∣ off + n - p.size)

/-- Storing the request's prefix of the buffer at its start keeps the promise. -/
theorem WriteSpec.of_overlay {p : Part} {n off : Int} {st : IoState}
    (hlen : 0 ≤ reqLen p n off) (hbuf : reqLen p n off ≤ st.buf.length)
    (calls : List DevCall) :
    WriteSpec p n off st (.ok (reqLen p n off)
      ⟨st.buf, overlay st.disk (reqStart p off)
        (st.buf.take (reqLen p n off).toNat), calls⟩) := by
  have htake : (st.buf.take (reqLen p n off).toNat).length =
      (reqLen p n off).toNat := by
    rw [List.length_take]
    omega
  refine ⟨rfl, rfl, ?_, ?_⟩
  · intro i hi
    have hin : i < (st.buf.take (reqLen p n off).toNat).length := by omega
    dsimp only
    rw [overlay_inside _ _ _ i hin, List.getElem_take,
      List.getElem?_eq_getElem]
  · intro x hx
    apply overlay_outside
    omega

/-- A direct write of an aligned range inside the disk keeps the promise. -/
theorem io_write_direct {d : Store} {p : Part} {k : Nat} {n off : Int}
    (hd : ReadyStore d k) (hp : InsideDisk d p) (hr : Request n off)
    {dio : DeviceIo} (hf : dio.Faithful d) (st : IoState)
    (hbuf : n ≤ st.buf.length) (hal : d.block ∣ off ∧ d.block ∣ n)
    (hlt : off + n < 2 ^ 63) (hs : d.block ∣ reqStart p off)
    (hlow : reqStart p off < 2 ^ 32) (hlen : d.block ∣ reqLen p n off) :
    WriteSpec p n off st (io d dio p true n off st) := by
  have hB := block_pos hd
  have hrange := reqLen_range hp hr
  have hstart := reqStart_range hp hr
  have hmod : reqStart p off % d.block = 0 := Int.dvd_iff_emod_eq_zero.mp hs
  have hn := xfer_n hd hp hr hlt
  have hround : roundUp d.block (reqLen p n off + reqStart p off % d.block) =
      reqLen p n off := by
    rw [hmod, Int.add_zero]
    exact (roundUp_eq_self_iff hB _).mpr hlen
  have hxn : (xfer d p n off).xn = reqLen p n off := by
    rw [xfer_xn hd hp hr, hn, hround]
    exact long_eq (by omega) (by have := hr.lenLt; omega)
  have hxs : (xfer d p n off).xs = reqStart p off := by
    rw [xfer_xs hd hp hr, hmod]
    omega
  have hin := xfer_inDisk hd hp hr hrange.1 hrange.2.2
  rw [hround, hxs] at hin
  have hdev := hf.write st.buf (reqLen p n off) (reqStart p off) st.disk hin
    (Int.le_trans hrange.2.1 hbuf)
  rw [io_accepted hd hr dio p true st (fun _ => hal), hxs, xfer_s hd hp hr,
    hxn, hn, if_neg (by simp)]
  simp only [ioDirect, hxn, hxs, hdev]
  exact WriteSpec.of_overlay hrange.1 (Int.le_trans hrange.2.1 hbuf) _

/-- A request the code serves keeps the promise. -/
theorem writeFaithful_of_safe {d : Store} {p : Part} {k : Nat} {n off : Int}
    (hd : ReadyStore d k) (hp : InsideDisk d p) (hr : Request n off)
    (h : WriteSafe d p n off) : WriteFaithful d p n off := by
  intro dio hf st hbuf
  by_cases hal : d.block ∣ off ∧ d.block ∣ n
  · have hlen := (reqLen_range hp hr).1
    -- nothing reached: the device is handed an empty range
    have hempty (hn : (xfer d p n off).n = 0) (hs : d.block ∣ reqStart p off)
        (hzero : reqLen p n off = 0) :
        WriteSpec p n off st (io d dio p true n off st) := by
      obtain ⟨calls, hio⟩ := io_empty hd hp hr hf true st (fun _ => hal) hn hs
      have hfit : reqLen p n off ≤ st.buf.length := by omega
      have hspec := WriteSpec.of_overlay hlen hfit calls
      rw [hio]
      simpa [hzero] using hspec
    rcases h.resolve_left (not_not.mpr hal) with
      ⟨hs, ⟨hlt, hzero | ⟨hlow, hdvd⟩⟩ | ⟨hge, hpast, hword⟩⟩
    · exact hempty (by rw [xfer_n hd hp hr hlt, hzero]) hs hzero
    · exact io_write_direct hd hp hr hf st hbuf hal hlt hs hlow hdvd
    · have hmin : min off p.size = p.size := by omega
      have hn : (xfer d p n off).n = 0 := by
        rw [xfer_n_wrap hd hp hr hge, hmin, long_eq_zero_iff]
        exact Int.dvd_iff_emod_eq_zero.mp hword
      refine hempty hn hs ?_
      have := hr.len
      unfold reqLen
      omega
  · rw [io_write_misaligned hd hr dio p st hal]
    exact fun _ => rfl

/-! ### A device that shows every unsafe write -/

/-- Serves exactly the ranges a device must serve, and overwrites the whole disk
when it is handed any other. -/
def sabotage (d : Store) : DeviceIo := fun w buf n off disk =>
  if InDisk d n off ∧ n ≤ buf.length then
    if w then (.ok n, buf, overlay disk off (buf.take n.toNat))
    else (.ok n, slice disk off n.toNat ++ buf.drop n.toNat, disk)
  else (.ok n, buf, fun _ => 3)

theorem sabotage_faithful (d : Store) : (sabotage d).Faithful d :=
  { write := by
      intro buf n off disk hin hle
      rw [sabotage, if_pos ⟨hin, hle⟩]
      rfl
    read := by
      intro buf n off disk hin hle
      rw [sabotage, if_pos ⟨hin, hle⟩]
      rfl }

/-- A disk of ones and a buffer of `n` twos. -/
def trial (n : Int) : IoState := ⟨List.replicate n.toNat 2, fun _ => 1, []⟩

/-- On the trial contents a kept promise shows at every address. -/
theorem WriteSpec.trial_disk {p : Part} {n off cnt : Int} {st' : IoState}
    (h : WriteSpec p n off (trial n) (.ok cnt st')) (x : Int) :
    st'.disk x =
      if reqStart p off ≤ x ∧ x < reqStart p off + reqLen p n off then 2
      else 1 := by
  obtain ⟨-, -, hin, hout⟩ := h
  split
  · rename_i hx
    have hbyte := hin (x - reqStart p off).toNat (by omega)
    have haddr : reqStart p off + ((x - reqStart p off).toNat : Int) = x := by
      omega
    rw [haddr, trial, List.getElem?_replicate] at hbyte
    split at hbyte
    · exact (Option.some.inj hbyte).symm
    · exact absurd hbyte (by simp)
  · rename_i hx
    exact hout x (by omega)

theorem bounceCount_le (x : Xfer) (xn : Int) : bounceCount x xn ≤ x.n := by
  simp only [bounceCount]
  split <;> omega

/-- A write through the bounce buffer keeps the promise only when there was
nothing to write: whatever the device stores is not the caller's. -/
theorem ioBounce_trial {d : Store} {p : Part} {n off : Int} {x : Xfer}
    (hlo : 0 ≤ reqStart p off) (hlen : 0 ≤ reqLen p n off)
    (h : WriteSpec p n off (trial n) (ioBounce (sabotage d) true x (trial n))) :
    x.xn = 0 ∧ reqLen p n off = 0 ∧ 0 ≤ x.n := by
  by_cases hserved : InDisk d x.xn x.xs ∧ x.xn ≤ (smalloc x.xn).length
  · have hdev : sabotage d true (smalloc x.xn) x.xn x.xs (trial n).disk =
        (.ok x.xn, smalloc x.xn,
          overlay (trial n).disk x.xs ((smalloc x.xn).take x.xn.toNat)) := by
      rw [sabotage, if_pos hserved]
      rfl
    rcases ioBounce_returned hdev with ⟨st', hio, hdisk⟩ | ⟨st', hio⟩
    · rw [hio] at h
      have hcount : bounceCount x x.xn = reqLen p n off := h.1
      have hle := bounceCount_le x x.xn
      have hzero : x.xn = 0 := by
        by_contra hne
        have hlt : 0 < ((smalloc x.xn).take x.xn.toNat).length := by
          have := hserved.1.len
          rw [List.length_take]
          omega
        have hwrote := overlay_inside (trial n).disk x.xs _ 0 hlt
        have hbyte := h.trial_disk (x.xs + (0 : Nat))
        rw [hdisk, hwrote] at hbyte
        simp only [smalloc, List.getElem_take, List.getElem_replicate] at hbyte
        split at hbyte <;> exact absurd hbyte (by decide)
      have hnone : reqLen p n off = 0 := by
        by_contra hne
        have hbyte := h.trial_disk (reqStart p off)
        rw [if_pos (by omega), hdisk] at hbyte
        simp [hzero, trial] at hbyte
      exact ⟨hzero, hnone, by omega⟩
    · rw [hio] at h
      exact h.elim
  · have hdev : sabotage d true (smalloc x.xn) x.xn x.xs (trial n).disk =
        (.ok x.xn, smalloc x.xn, fun _ => 3) := by
      rw [sabotage, if_neg hserved]
    rcases ioBounce_returned hdev with ⟨st', hio, hdisk⟩ | ⟨st', hio⟩
    · rw [hio] at h
      have hbyte := h.trial_disk (-1)
      rw [if_neg (by omega), hdisk] at hbyte
      exact absurd hbyte (by decide)
    · rw [hio] at h
      exact h.elim

/-- The direct path counts what the device was asked for. -/
theorem ioDirect_trial {d : Store} {p : Part} {n off : Int} {x : Xfer}
    (h : WriteSpec p n off (trial n) (ioDirect (sabotage d) true x (trial n))) :
    x.xn = reqLen p n off := by
  by_cases hserved : InDisk d x.xn x.xs ∧ x.xn ≤ (trial n).buf.length
  · have hdev := (sabotage_faithful d).write _ _ _ (trial n).disk
      hserved.1 hserved.2
    simp only [ioDirect, hdev] at h
    exact h.1
  · have hdev : sabotage d true (trial n).buf x.xn x.xs (trial n).disk =
        (.ok x.xn, (trial n).buf, fun _ => 3) := if_neg hserved
    simp only [ioDirect, hdev] at h
    exact h.1

/-- Serves exactly the ranges a device must serve, and raises on any other. -/
def strict (d : Store) : DeviceIo := fun w buf n off disk =>
  if InDisk d n off ∧ n ≤ buf.length then
    if w then (.ok n, buf, overlay disk off (buf.take n.toNat))
    else (.ok n, slice disk off n.toNat ++ buf.drop n.toNat, disk)
  else (.error (.error Ebadarg), buf, disk)

theorem strict_refused {d : Store} {w : Bool} {buf : Bytes} {n off : Int}
    {disk : Mem} (h : ¬(InDisk d n off ∧ n ≤ buf.length)) :
    strict d w buf n off disk = (.error (.error Ebadarg), buf, disk) := by
  simp only [strict, h, if_false]

theorem strict_faithful (d : Store) : (strict d).Faithful d :=
  { write := by
      intro buf n off disk hin hle
      simp only [strict, hin, hle, and_self, if_true]
    read := by
      intro buf n off disk hin hle
      simp only [strict, hin, hle, and_self, if_true, Bool.false_eq_true,
        if_false] }

/-! ### When the end of a request wraps -/

section Wrap

variable {d : Store} {p : Part} {k : Nat} {n off : Int}
  (hd : ReadyStore d k) (hp : InsideDisk d p) (hr : Request n off)
  (hge : 2 ^ 63 ≤ off + n)

include hp hr hge

/-- A wrapping request begins beyond 4 GiB, or beyond its partition. -/
theorem wrap_start : p.size < off ∨ 2 ^ 32 ≤ reqStart p off := by
  have := hp.start
  have := hr.lenLt
  unfold reqStart
  omega

include hd

/-- A wrapping request that reaches nothing and asks for nothing lies beyond
the partition by a multiple of 4 GiB. -/
theorem wrap_empty (hlen : reqLen p n off = 0) (hn : (xfer d p n off).n = 0) :
    p.size < off ∧ 2 ^ 32 ∣ off + n - p.size := by
  have := hp.start
  have := hp.stop
  have := hd.sizeLt
  have := hr.len
  have := hr.lenLt
  have := hr.startLt
  have hnone : min (off + n) p.size - min off p.size = 0 := hlen
  rw [xfer_n_wrap hd hp hr hge, long_eq_zero_iff] at hn
  have hmin : min off p.size = p.size := by omega
  rw [hmin] at hn
  refine ⟨?_, Int.dvd_iff_emod_eq_zero.mpr hn⟩
  omega

end Wrap

/-- The rounded length is zero only for an empty range at an aligned place. -/
theorem xfer_xn_eq_zero {d : Store} {p : Part} {k : Nat} {n off : Int}
    (hd : ReadyStore d k) (hp : InsideDisk d p) (hr : Request n off)
    (hal : d.block ∣ n) (hn : 0 ≤ (xfer d p n off).n)
    (hzero : (xfer d p n off).n = 0 ∨ 0 < n) (hxn : (xfer d p n off).xn = 0) :
    (xfer d p n off).n = 0 ∧ d.block ∣ reqStart p off := by
  have hB := block_pos hd
  have hle := block_le hd
  have hlt := (xfer_n_range d p n off).2
  obtain ⟨hmod, hmodLt⟩ := reqStart_mod_range hd p off
  rw [xfer_xn hd hp hr, long_eq_zero_iff] at hxn
  have hge := le_roundUp hB ((xfer d p n off).n + reqStart p off % d.block)
  have hup := roundUp_lt hB ((xfer d p n off).n + reqStart p off % d.block)
  have hsmall : roundUp d.block
      ((xfer d p n off).n + reqStart p off % d.block) < 2 ^ 32 := by
    rcases hzero with h | h
    · rw [h] at hup ⊢
      omega
    · have hhalf := block_half hd
        (Int.lt_of_le_of_lt (Int.le_of_dvd h hal) hr.lenLt)
      omega
  rw [Int.dvd_iff_emod_eq_zero]
  omega

/-- A request that keeps its promise with every device and every content is one
the code serves. -/
theorem safe_of_writeFaithful {d : Store} {p : Part} {k : Nat} {n off : Int}
    (hd : ReadyStore d k) (hp : InsideDisk d p) (hr : Request n off)
    (h : WriteFaithful d p n off) : WriteSafe d p n off := by
  by_cases hal : d.block ∣ off ∧ d.block ∣ n
  · right
    have hlen := (reqLen_range hp hr).1
    have hs := reqStart_range hp hr
    have hspec := h (sabotage d) (sabotage_faithful d) (trial n)
      (by simp only [trial, List.length_replicate]; omega)
    rw [io_accepted hd hr _ p true _ (fun _ => hal)] at hspec
    split at hspec
    · obtain ⟨hxn, hnone, hn⟩ := ioBounce_trial hs.1 hlen hspec
      have hor : (xfer d p n off).n = 0 ∨ 0 < n := by
        by_cases hlt : off + n < 2 ^ 63
        · exact Or.inl (by rw [xfer_n hd hp hr hlt, hnone])
        · have := hr.startLt
          exact Or.inr (by omega)
      obtain ⟨hzero, hdvd⟩ := xfer_xn_eq_zero hd hp hr hal.2 hn hor hxn
      refine ⟨hdvd, ?_⟩
      by_cases hlt : off + n < 2 ^ 63
      · exact Or.inl ⟨hlt, Or.inl hnone⟩
      · have hge : 2 ^ 63 ≤ off + n := by omega
        exact Or.inr ⟨hge, wrap_empty hd hp hr hge hnone hzero⟩
    · rename_i hdirect
      obtain ⟨hxs, hxn⟩ := not_or.mp hdirect
      rw [ne_eq, not_not] at hxs hxn
      have hcount := ioDirect_trial hspec
      have hB := block_pos hd
      have hmod := (reqStart_mod_range hd p off).1
      rw [xfer_xs hd hp hr, xfer_s hd hp hr] at hxs
      have hsmod : reqStart p off % d.block = 0 := by omega
      have hlow : reqStart p off < 2 ^ 32 := by omega
      refine ⟨Int.dvd_iff_emod_eq_zero.mpr hsmod, ?_⟩
      by_cases hlt : off + n < 2 ^ 63
      · left
        refine ⟨hlt, Or.inr ⟨hlow, ?_⟩⟩
        have hround := xfer_xn hd hp hr
        rw [hcount, xfer_n hd hp hr hlt, hsmod, Int.add_zero] at hround
        have hup := roundUp_lt hB (reqLen p n off)
        have hge := le_roundUp hB (reqLen p n off)
        have hBle := block_le hd
        rw [← roundUp_eq_self_iff hB]
        unfold long at hround
        omega
      · have hge : 2 ^ 63 ≤ off + n := by omega
        have hpast := (wrap_start hp hr hge).resolve_right (by omega)
        have hnone : reqLen p n off = 0 := by
          have := hp.start
          have := hp.stop
          have := hd.sizeLt
          have := hr.len
          unfold reqLen
          omega
        exact Or.inr ⟨hge, wrap_empty hd hp hr hge hnone (by omega)⟩
  · exact Or.inl hal

/-- **Writes.**  A write keeps its promise with every device that serves aligned
ranges, every disk content and every buffer, exactly when it is refused as
misaligned, or when the range it reaches is empty, or is aligned and begins
below 4 GiB. -/
theorem io_write_faithful_iff {d : Store} {p : Part} {k : Nat} {n off : Int}
    (hd : ReadyStore d k) (hp : InsideDisk d p) (hr : Request n off) :
    WriteFaithful d p n off ↔ WriteSafe d p n off :=
  ⟨safe_of_writeFaithful hd hp hr, writeFaithful_of_safe hd hp hr⟩

/-- A card of 8 GiB with 512-byte blocks; its only partition is the whole
disk. -/
def card : Store :=
  { vers := 1
    ready := 1
    num := 0
    name := ascii "bs00"
    alignmask := 511
    parts := [partdata [] (2 ^ 33)]
    nparts := 1
    size := 2 ^ 33 }

theorem card_ready : ReadyStore card 9 :=
  { ready := by decide
    mask := by decide
    width := by decide
    sizeDvd := by decide
    sizeLt := by decide }

theorem card_inside : InsideDisk card (partdata [] (2 ^ 33)) :=
  { start := by decide
    size := by decide
    stop := by decide }

theorem card_request {n off : Int} (hn : 0 ≤ n ∧ n ≤ 4096)
    (hoff : 0 ≤ off ∧ off < 2 ^ 33) : Request n off :=
  { len := hn.1
    lenLt := by omega
    start := hoff.1
    startLt := by omega }

/-- The first block of the card is written faithfully. -/
theorem io_write_first_block :
    WriteFaithful card (partdata [] (2 ^ 33)) 512 0 :=
  (io_write_faithful_iff card_ready card_inside
    (card_request (by decide) (by decide))).mpr
    (Or.inr ⟨by decide, Or.inl ⟨by decide, Or.inr (by decide)⟩⟩)

/-- The block at 4 GiB is not: the write clears the first block of the card and
the caller's buffer. -/
theorem io_write_at_4GiB :
    ReadyStore card 9 ∧ InsideDisk card (partdata [] (2 ^ 33)) ∧
      Request 512 (2 ^ 32) ∧ (strict card).Faithful card ∧
      ∃ st', io card (strict card) (partdata [] (2 ^ 33)) true 512 (2 ^ 32)
          (trial 512) = .ok 512 st' ∧
        (trial 512).disk 0 = 1 ∧ st'.disk 0 = 0 ∧
        (trial 512).buf[0]? = some 2 ∧ st'.buf[0]? = some 0 ∧
        ¬WriteSpec (partdata [] (2 ^ 33)) 512 (2 ^ 32) (trial 512)
          (.ok 512 st') := by
  have hreq : Request 512 (2 ^ 32) := card_request (by decide) (by decide)
  have hx : xfer card (partdata [] (2 ^ 33)) 512 (2 ^ 32) =
      ⟨2 ^ 32, 512, 0, 512⟩ := by
    decide +kernel
  have hzero : smalloc 512 = List.replicate 512 0 := rfl
  have hdev := (strict_faithful card).write (smalloc 512) 512 0
    (trial 512).disk (by decide) (by rw [hzero, List.length_replicate]; decide)
  have hcount : bounceCount ⟨2 ^ 32, 512, 0, 512⟩ 512 = 512 := by
    decide +kernel
  have hmove : memmove (trial 512).buf (smalloc 512) (2 ^ 32 - 0) 512 =
      .ok (smalloc 512) := by
    decide +kernel
  have htwo : (trial 512).buf[0]? = some 2 :=
    List.getElem?_replicate_of_lt (by decide)
  have hcleared : (smalloc 512)[0]? = some 0 :=
    List.getElem?_replicate_of_lt (by decide)
  refine ⟨card_ready, card_inside, hreq, strict_faithful card,
    ⟨smalloc 512,
      overlay (trial 512).disk 0 ((smalloc 512).take (Int.toNat 512)),
      [⟨true, 512, 0⟩]⟩, ?_, rfl, ?_, htwo, hcleared, ?_⟩
  · have hbounce : (xfer card (partdata [] (2 ^ 33)) 512 (2 ^ 32)).xs ≠
        (xfer card (partdata [] (2 ^ 33)) 512 (2 ^ 32)).s := by
      rw [hx]
      decide
    rw [io_accepted card_ready hreq _ _ true _ (fun _ => by decide),
      if_pos (Or.inl hbounce), hx]
    rw [ioBounce_eq (x := ⟨2 ^ 32, 512, 0, 512⟩) hdev
      (by rw [hcount]; exact hmove), hcount]
    rfl
  · have hhead : ((smalloc 512).take (Int.toNat 512))[0]? = some 0 := by
      rw [List.getElem?_take_of_lt (by decide), hcleared]
    dsimp only
    exact overlay_head _ _ hhead
  · rintro ⟨-, hbuf, -⟩
    have hhead := congrArg (fun b : Bytes => b[0]?) hbuf
    rw [hcleared, htwo] at hhead
    exact absurd hhead (by decide)

/-! ## Reads -/

/-- What a read of `n` bytes at `off` of partition `p` promises: it returns as
many bytes as the partition holds there, they are the disk's, the rest of the
buffer keeps its contents, and the disk is unchanged. -/
def ReadSpec (p : Part) (n off : Int) (st : IoState) : IoResult → Prop
  | .ok cnt st' =>
      cnt = min n (max 0 (p.size - off)) ∧
      st'.buf = slice st.disk (p.s + off) cnt.toNat ++ st.buf.drop cnt.toNat ∧
      st'.disk = st.disk
  | .error _ _ => False

/-- The promise is kept with every faithful device, every disk content and
every buffer. -/
def ReadFaithful (d : Store) (p : Part) (n off : Int) : Prop :=
  ∀ dio : DeviceIo, dio.Faithful d → ∀ st : IoState, n ≤ st.buf.length →
    ReadSpec p n off st (io d dio p false n off st)

/-- The reads whose rounded length is a `long` and whose start needs no bit
above the 32nd.  When `off+n` wraps, the length read is what 32 bits keep of
`off + n - p.size`; it must vanish, or vanish when it is rounded up. -/
def ReadSafe (d : Store) (p : Part) (n off : Int) : Prop :=
  let s := reqStart p off
  off + n < 2 ^ 63 ∧ (reqLen p n off = 0 ∨ s < 2 ^ 32) ∧
      roundUp d.block (reqLen p n off + s % d.block) < 2 ^ 31 ∨
  2 ^ 63 ≤ off + n ∧ p.size < off ∧
    (2 ^ 32 ∣ off + n - p.size ∧ roundUp d.block (s % d.block) < 2 ^ 31 ∨
      0 < long (off + n - p.size) ∧
        roundUp d.block (long (off + n - p.size) + s % d.block) = 2 ^ 32)

/-- A device that delivers the whole rounded range delivers the request. -/
theorem bounceCount_round {d : Store} {p : Part} {k : Nat} {n off : Int}
    (hd : ReadyStore d k) (hp : InsideDisk d p) (hr : Request n off)
    (hm : 0 ≤ (xfer d p n off).n)
    (hround : roundUp d.block ((xfer d p n off).n + reqStart p off % d.block) <
      2 ^ 31) :
    bounceCount (xfer d p n off)
        (roundUp d.block ((xfer d p n off).n + reqStart p off % d.block)) =
      (xfer d p n off).n := by
  have hB := block_pos hd
  have hmod := (reqStart_mod_range hd p off).1
  have hge := le_roundUp hB ((xfer d p n off).n + reqStart p off % d.block)
  have hxs := xfer_xs hd hp hr
  generalize roundUp d.block _ = R at *
  have hback : long (R - ((xfer d p n off).s - (xfer d p n off).xs)) =
      R - reqStart p off % d.block := by
    rw [xfer_s hd hp hr, hxs]
    unfold long
    omega
  have hclamp : (if R - reqStart p off % d.block < 0 then 0
      else R - reqStart p off % d.block) = R - reqStart p off % d.block :=
    if_neg (by omega)
  simp only [bounceCount, hback, hclamp]
  split <;> omega

/-- A read whose length survived the arithmetic: it delivers that many bytes
from the low 32 bits of the start. -/
theorem io_read_run {d : Store} {p : Part} {k : Nat} {n off m : Int}
    (hd : ReadyStore d k) (hp : InsideDisk d p) (hr : Request n off)
    {dio : DeviceIo} (hf : dio.Faithful d) (st : IoState)
    (hn : (xfer d p n off).n = m) (hm : 0 ≤ m) (hbuf : m ≤ st.buf.length)
    (hround : roundUp d.block (m + reqStart p off % d.block) < 2 ^ 31)
    (hin : InDisk d (roundUp d.block (m + reqStart p off % d.block))
      (xfer d p n off).xs) :
    ∃ calls, io d dio p false n off st = .ok m
      ⟨slice st.disk (reqStart p off % 2 ^ 32) m.toNat ++ st.buf.drop m.toNat,
        st.disk, calls⟩ := by
  have hB := block_pos hd
  have hmod := (reqStart_mod_range hd p off).1
  have hge := le_roundUp hB (m + reqStart p off % d.block)
  have hxn : (xfer d p n off).xn =
      roundUp d.block (m + reqStart p off % d.block) := by
    rw [xfer_xn hd hp hr, hn]
    exact long_eq (by omega) hround
  have hxs := xfer_xs hd hp hr
  have hcount := bounceCount_round hd hp hr (by rw [hn]; exact hm)
    (by rw [hn]; exact hround)
  rw [hn] at hcount
  rw [io_accepted hd hr dio p false st (fun h => absurd h (by decide))]
  generalize roundUp d.block (m + reqStart p off % d.block) = R at *
  split
  · have hsize : (smalloc R).length = R.toNat := by
      rw [smalloc, List.length_replicate, ulong_eq (by omega) (by omega)]
    have hdev := hf.read (smalloc R) R _ st.disk hin (by omega)
    rw [List.drop_eq_nil_of_le (by omega), List.append_nil] at hdev
    have hmove : memmove st.buf (slice st.disk (xfer d p n off).xs R.toNat)
        ((xfer d p n off).s - (xfer d p n off).xs)
        (bounceCount (xfer d p n off) R) =
        .ok (slice st.disk (reqStart p off % 2 ^ 32) m.toNat ++
          st.buf.drop m.toNat) := by
      have haddr : (xfer d p n off).xs + ((reqStart p off % d.block).toNat : Int) =
          reqStart p off % 2 ^ 32 := by omega
      rw [hcount, memmove_eq (j := (reqStart p off % d.block).toNat)
        (k := m.toNat), slice_window _ _ (by omega), haddr]
      · rw [ulong_bounce hd hp hr]
        omega
      · rw [ulong_eq hm (by omega)]
        omega
      · rw [slice_length]
        omega
      · omega
    rw [ioBounce_eq (by rw [hxn]; exact hdev) hmove, hcount]
    exact ⟨_, rfl⟩
  · rename_i hdirect
    obtain ⟨hstart, hlen⟩ := not_or.mp hdirect
    rw [ne_eq, not_not] at hstart hlen
    have hRm : R = m := by omega
    have hdev := hf.read st.buf m _ st.disk (hRm ▸ hin) hbuf
    have hlow : reqStart p off % 2 ^ 32 = (xfer d p n off).xs := by
      rw [xfer_s hd hp hr] at hstart
      omega
    rw [hlow, ioDirect_eq (by rw [hxn, hRm]; exact hdev)]
    exact ⟨_, rfl⟩

/-- The delivered bytes are the ones asked for. -/
theorem ReadSpec.of_run {d : Store} {p : Part} {n off : Int} {st : IoState}
    (hp : InsideDisk d p) (hr : Request n off) {m : Int}
    (hm : m = min n (max 0 (p.size - off)))
    (hlow : m = 0 ∨ reqStart p off < 2 ^ 32) (calls : List DevCall) :
    ReadSpec p n off st (.ok m
      ⟨slice st.disk (reqStart p off % 2 ^ 32) m.toNat ++ st.buf.drop m.toNat,
        st.disk, calls⟩) := by
  refine ⟨hm, ?_, rfl⟩
  by_cases hzero : m = 0
  · simp [hzero, slice]
  · have hs := (reqStart_range hp hr).1
    have hn := hr.len
    have hstart : reqStart p off % 2 ^ 32 = p.s + off := by
      unfold reqStart at hs hlow ⊢
      omega
    rw [hstart]

section Past

variable {d : Store} {p : Part} {k : Nat} {n off : Int}
  (hd : ReadyStore d k) (hp : InsideDisk d p) (hr : Request n off)
  (hge : 2 ^ 63 ≤ off + n)

include hp in
/-- Nothing can be read past the end of the partition. -/
theorem past_count (hn : 0 ≤ n) (hpast : p.size < off) :
    (0 : Int) = min n (max 0 (p.size - off)) := by
  have := hp.size
  omega

include hd hp hr hge

theorem xfer_n_past (hpast : p.size < off) :
    (xfer d p n off).n = long (off + n - p.size) := by
  have hmin : min off p.size = p.size := Int.min_eq_right (Int.le_of_lt hpast)
  rw [xfer_n_wrap hd hp hr hge, hmin]

end Past

/-- A request the code serves keeps the promise. -/
theorem readFaithful_of_safe {d : Store} {p : Part} {k : Nat} {n off : Int}
    (hd : ReadyStore d k) (hp : InsideDisk d p) (hr : Request n off)
    (h : ReadSafe d p n off) : ReadFaithful d p n off := by
  intro dio hf st hbuf
  have hs := reqStart_range hp hr
  rcases h with ⟨hlt, hlow, hround⟩ | ⟨hge, hpast, hwrap⟩
  · have hlen := reqLen_range hp hr
    obtain ⟨calls, hio⟩ := io_read_run hd hp hr hf st (xfer_n hd hp hr hlt)
      hlen.1 (Int.le_trans hlen.2.1 hbuf) hround
      (xfer_inDisk hd hp hr hlen.1 hlen.2.2)
    rw [hio]
    exact ReadSpec.of_run hp hr (reqLen_eq hp hr) hlow calls
  · have hn := xfer_n_past hd hp hr hge hpast
    have hnone := past_count hp hr.len hpast
    rcases hwrap with ⟨hword, hround⟩ | ⟨hpos, hup⟩
    · rw [(long_eq_zero_iff _).mpr (Int.dvd_iff_emod_eq_zero.mp hword)] at hn
      rw [← Int.zero_add (reqStart p off % d.block)] at hround
      obtain ⟨calls, hio⟩ := io_read_run hd hp hr hf st hn (Int.le_refl 0)
        (Int.natCast_nonneg _) hround
        (xfer_inDisk hd hp hr (Int.le_refl 0) (by rw [Int.add_zero]; exact hs.2))
      rw [hio]
      exact ReadSpec.of_run hp hr hnone (Or.inl rfl) calls
    · have hxn : (xfer d p n off).xn = 0 := by
        rw [xfer_xn hd hp hr, hn, hup]
        rfl
      obtain ⟨calls, hio⟩ := io_nothing hd hp hr hf false st
        (fun h => absurd h (by decide)) (hn ▸ Int.le_of_lt hpos) hxn
      rw [hio]
      exact ⟨hnone, by simp [slice], rfl⟩

/-! ### A device that shows every unsafe read -/

/-- A disk whose bytes from 4 GiB on differ from those below. -/
def readTrial (n : Int) : IoState :=
  ⟨List.replicate n.toNat 0, fun x => if x < 2 ^ 32 then 1 else 2, []⟩

/-- The bytes of that disk tell a start apart from its low 32 bits. -/
theorem readTrial_low {d : Store} {p : Part} {n off : Int}
    (hp : InsideDisk d p) (hr : Request n off)
    (h : (if reqStart p off % 2 ^ 32 < 2 ^ 32 then (1 : UInt8) else 2) =
      if p.s + off < 2 ^ 32 then 1 else 2) : reqStart p off < 2 ^ 32 := by
  have hs := reqStart_range hp hr
  have hlt : reqStart p off % 2 ^ 32 < 2 ^ 32 := by omega
  rw [if_pos hlt] at h
  have hlow : p.s + off < 2 ^ 32 := by
    by_contra hhigh
    rw [if_neg hhigh] at h
    exact absurd h (by decide)
  unfold reqStart
  omega

/-- With the strict device a kept promise shows a served range, and a count no
larger than the derived length. -/
theorem io_strict_served {d : Store} {p : Part} {k : Nat} {n off : Int}
    (hd : ReadyStore d k) (hr : Request n off)
    (h : ReadSpec p n off (readTrial n)
      (io d (strict d) p false n off (readTrial n))) :
    InDisk d (xfer d p n off).xn (xfer d p n off).xs ∧
      ((xfer d p n off).xs = (xfer d p n off).s ∧
          (xfer d p n off).xn = (xfer d p n off).n ∧
          (xfer d p n off).n = min n (max 0 (p.size - off)) ∨
        bounceCount (xfer d p n off) (xfer d p n off).xn =
          min n (max 0 (p.size - off))) := by
  rw [io_accepted hd hr _ p false _ (fun h => absurd h (by decide))] at h
  split at h
  · by_cases hserved : InDisk d (xfer d p n off).xn (xfer d p n off).xs ∧
        (xfer d p n off).xn ≤ (smalloc (xfer d p n off).xn).length
    · have hdev := (strict_faithful d).read _ _ _ (readTrial n).disk
        hserved.1 hserved.2
      rcases ioBounce_returned hdev with ⟨st', hio, -⟩ | ⟨st', hio⟩
      · rw [hio] at h
        exact ⟨hserved.1, Or.inr h.1⟩
      · rw [hio] at h
        exact h.elim
    · rw [ioBounce_error (strict_refused hserved)] at h
      exact h.elim
  · rename_i hdirect
    obtain ⟨hxs, hxn⟩ := not_or.mp hdirect
    rw [ne_eq, not_not] at hxs hxn
    by_cases hserved : InDisk d (xfer d p n off).xn (xfer d p n off).xs ∧
        (xfer d p n off).xn ≤ (readTrial n).buf.length
    · rw [ioDirect_eq ((strict_faithful d).read _ _ _ _ hserved.1 hserved.2)]
        at h
      exact ⟨hserved.1, Or.inl ⟨hxs, hxn, hxn.symm.trans h.1⟩⟩
    · rw [ioDirect_error (strict_refused hserved)] at h
      exact h.elim

section WrapServed

variable {d : Store} {p : Part} {k : Nat} {n off : Int}
  (hd : ReadyStore d k) (hp : InsideDisk d p) (hr : Request n off)
  (hge : 2 ^ 63 ≤ off + n)

include hd hp hr hge

/-- A wrapping request whose derived length is the promised count lies beyond
the partition. -/
theorem wrap_long_past
    (hlen : (xfer d p n off).n = min n (max 0 (p.size - off))) :
    p.size < off := by
  by_contra hin
  have hmin : min off p.size = off := Int.min_eq_left (Int.not_lt.mp hin)
  have hsum : off + n - off = n := by omega
  have hlt := hr.lenLt
  have hn := hr.len
  rw [xfer_n_wrap hd hp hr hge, hmin, hsum, long_eq (by omega) hlt] at hlen
  have := hp.start
  have := hp.stop
  have := hd.sizeLt
  omega

/-- So does one whose rounded length takes all of 32 bits. -/
theorem wrap_word_past (hnone : min n (max 0 (p.size - off)) = 0)
    (hround : roundUp d.block
      ((xfer d p n off).n + reqStart p off % d.block) = 2 ^ 32) :
    p.size < off := by
  by_contra hin
  have hmin : min off p.size = off := Int.min_eq_left (Int.not_lt.mp hin)
  have hsum : off + n - off = n := by omega
  have hlt := hr.lenLt
  have hoff := hr.startLt
  have hB := block_pos hd
  have hroom : d.block ≤ 2 ^ 63 - d.size :=
    Int.le_of_dvd (by have := hd.sizeLt; omega)
      (Int.dvd_sub (block_dvd_offsets hd) hd.sizeDvd)
  have hend : p.size ≤ off ∧ p.size ≤ d.size := by
    have := hp.start
    have := hp.stop
    omega
  have hhalf := block_half hd (by omega)
  rw [xfer_n_wrap hd hp hr hge, hmin, hsum, long_eq (by omega) hlt] at hround
  have hup := roundUp_lt hB (n + reqStart p off % d.block)
  have hmodLt := (reqStart_mod_range hd p off).2
  omega

end WrapServed

section Served

variable {d : Store} {p : Part} {k : Nat} {n off : Int}
  (hd : ReadyStore d k) (hp : InsideDisk d p) (hr : Request n off)
  (h : ReadSpec p n off (readTrial n)
    (io d (strict d) p false n off (readTrial n)))

include hd hr h

/-- A kept promise derives no negative length. -/
theorem served_nonneg :
    0 ≤ (xfer d p n off).n ∧ 0 ≤ (xfer d p n off).xn := by
  obtain ⟨hin, hcase⟩ := io_strict_served hd hr h
  refine ⟨?_, hin.len⟩
  have hn := hr.len
  rcases hcase with ⟨-, -, hlen⟩ | hcount
  · omega
  · have hle := bounceCount_le (xfer d p n off) (xfer d p n off).xn
    omega

include hp

/-- The rounded length is a `long`, or all of 32 bits. -/
theorem served_round :
    roundUp d.block ((xfer d p n off).n + reqStart p off % d.block) < 2 ^ 31 ∨
      roundUp d.block ((xfer d p n off).n + reqStart p off % d.block) =
        2 ^ 32 := by
  obtain ⟨hn, hxn⟩ := served_nonneg hd hr h
  have hB := block_pos hd
  have hle := block_le hd
  have hlt := (xfer_n_range d p n off).2
  obtain ⟨hmod, hmodLt⟩ := reqStart_mod_range hd p off
  have hge := le_roundUp hB ((xfer d p n off).n + reqStart p off % d.block)
  have hword : roundUp d.block
      ((xfer d p n off).n + reqStart p off % d.block) ≤ 2 ^ 32 :=
    roundUp_le hB (block_dvd_word hd) (by omega)
  rw [xfer_xn hd hp hr] at hxn
  unfold long at hxn
  omega

/-- When the rounded length is a `long`, the derived length is the promised
count, and a nonempty range begins below 4 GiB. -/
theorem served_long
    (hround : roundUp d.block
      ((xfer d p n off).n + reqStart p off % d.block) < 2 ^ 31) :
    (xfer d p n off).n = min n (max 0 (p.size - off)) ∧
      ((xfer d p n off).n = 0 ∨ reqStart p off < 2 ^ 32) := by
  obtain ⟨hn, hxn⟩ := served_nonneg hd hr h
  obtain ⟨hin, hcase⟩ := io_strict_served hd hr h
  have hxnR : (xfer d p n off).xn = roundUp d.block
      ((xfer d p n off).n + reqStart p off % d.block) := by
    rw [xfer_xn hd hp hr] at hxn ⊢
    unfold long at hxn ⊢
    have hge := le_roundUp (block_pos hd)
      ((xfer d p n off).n + reqStart p off % d.block)
    have hmod := (reqStart_mod_range hd p off).1
    omega
  have hlen : (xfer d p n off).n = min n (max 0 (p.size - off)) := by
    rcases hcase with ⟨-, -, hlen⟩ | hcount
    · exact hlen
    · rwa [hxnR, bounceCount_round hd hp hr hn hround] at hcount
  refine ⟨hlen, ?_⟩
  rw [hxnR] at hin
  have hbuf : (xfer d p n off).n ≤ (readTrial n).buf.length := by
    simp only [readTrial, List.length_replicate]
    omega
  obtain ⟨calls, hio⟩ := io_read_run hd hp hr (strict_faithful d)
    (readTrial n) rfl hn hbuf hround hin
  rw [hio] at h
  by_cases hzero : (xfer d p n off).n = 0
  · exact Or.inl hzero
  · right
    have hpos : 0 < (xfer d p n off).n.toNat := by omega
    have hbytes := congrArg (fun b : Bytes => b[0]?) h.2.1
    simp only [slice_append_head _ _ hpos, readTrial] at hbytes
    exact readTrial_low hp hr (Option.some.inj hbytes)

/-- When it is all of 32 bits, no byte was promised. -/
theorem served_word
    (hround : roundUp d.block
      ((xfer d p n off).n + reqStart p off % d.block) = 2 ^ 32) :
    min n (max 0 (p.size - off)) = 0 ∧ 0 < (xfer d p n off).n := by
  have hn := (served_nonneg hd hr h).1
  have hxn : (xfer d p n off).xn = 0 := by
    rw [xfer_xn hd hp hr, hround]
    rfl
  obtain ⟨calls, hio⟩ := io_nothing hd hp hr (strict_faithful d) false
    (readTrial n) (fun h => absurd h (by decide)) hn hxn
  rw [hio] at h
  refine ⟨h.1.symm, ?_⟩
  by_contra hzero
  have hnz : (xfer d p n off).n = 0 := by omega
  have hB := block_pos hd
  have hle := block_le hd
  have hmodLt := (reqStart_mod_range hd p off).2
  have hup : roundUp d.block (0 + reqStart p off % d.block) ≤ d.block :=
    roundUp_le hB (Int.dvd_refl _) (by omega)
  rw [hnz] at hround
  omega

end Served

/-- A read that keeps its promise with every device and every content is one
the code serves. -/
theorem safe_of_readFaithful {d : Store} {p : Part} {k : Nat} {n off : Int}
    (hd : ReadyStore d k) (hp : InsideDisk d p) (hr : Request n off)
    (h : ReadFaithful d p n off) : ReadSafe d p n off := by
  have hspec := h (strict d) (strict_faithful d) (readTrial n)
    (by simp only [readTrial, List.length_replicate]; omega)
  have hround := served_round hd hp hr hspec
  by_cases hlt : off + n < 2 ^ 63
  · have hn := xfer_n hd hp hr hlt
    rcases hround with hlong | hword
    · have hlow := (served_long hd hp hr hspec hlong).2
      rw [hn] at hlow hlong
      exact Or.inl ⟨hlt, hlow, hlong⟩
    · have hnone := served_word hd hp hr hspec hword
      rw [hn, reqLen_eq hp hr] at hnone
      exact absurd hnone.1 (Int.ne_of_gt hnone.2)
  · have hge : 2 ^ 63 ≤ off + n := Int.not_lt.mp hlt
    right
    rcases hround with hlong | hword
    · have hlen := (served_long hd hp hr hspec hlong).1
      have hpast := wrap_long_past hd hp hr hge hlen
      rw [xfer_n_past hd hp hr hge hpast] at hlen hlong
      rw [← past_count hp hr.len hpast] at hlen
      rw [hlen, Int.zero_add] at hlong
      exact ⟨hge, hpast, Or.inl
        ⟨Int.dvd_iff_emod_eq_zero.mpr ((long_eq_zero_iff _).mp hlen), hlong⟩⟩
    · have hnone := served_word hd hp hr hspec hword
      have hpast := wrap_word_past hd hp hr hge hnone.1 hword
      rw [xfer_n_past hd hp hr hge hpast] at hnone hword
      exact ⟨hge, hpast, Or.inr ⟨hnone.2, hword⟩⟩

/-- **Reads.**  A read keeps its promise with every device that serves aligned
ranges, every disk content and every buffer, exactly when its rounded length is
a `long` and the range it reaches is empty or begins below 4 GiB. -/
theorem io_read_faithful_iff {d : Store} {p : Part} {k : Nat} {n off : Int}
    (hd : ReadyStore d k) (hp : InsideDisk d p) (hr : Request n off) :
    ReadFaithful d p n off ↔ ReadSafe d p n off :=
  ⟨safe_of_readFaithful hd hp hr, readFaithful_of_safe hd hp hr⟩

/-- A misaligned read inside the first two blocks is faithful. -/
theorem io_read_first_blocks :
    ReadFaithful card (partdata [] (2 ^ 33)) 600 100 :=
  (io_read_faithful_iff card_ready card_inside
    (card_request (by decide) (by decide))).mpr
    (Or.inl ⟨by decide, Or.inr (by decide), by decide +kernel⟩)

/-- A read at 4 GiB is not: it delivers the first block of the card. -/
theorem io_read_at_4GiB :
    ReadyStore card 9 ∧ InsideDisk card (partdata [] (2 ^ 33)) ∧
      Request 512 (2 ^ 32) ∧ (strict card).Faithful card ∧
      ∃ st', io card (strict card) (partdata [] (2 ^ 33)) false 512 (2 ^ 32)
          (readTrial 512) = .ok 512 st' ∧
        (readTrial 512).disk 0 = 1 ∧ (readTrial 512).disk (2 ^ 32) = 2 ∧
        st'.buf[0]? = some 1 ∧
        ¬ReadSpec (partdata [] (2 ^ 33)) 512 (2 ^ 32) (readTrial 512)
          (.ok 512 st') := by
  have hreq : Request 512 (2 ^ 32) := card_request (by decide) (by decide)
  have hround : roundUp card.block
      (512 + reqStart (partdata [] (2 ^ 33)) (2 ^ 32) % card.block) = 512 := by
    decide +kernel
  have hlen : (xfer card (partdata [] (2 ^ 33)) 512 (2 ^ 32)).n = 512 := by
    decide +kernel
  have hin := xfer_inDisk card_ready card_inside hreq
    (show 0 ≤ (512 : Int) by decide) (by decide)
  obtain ⟨calls, hio⟩ := io_read_run card_ready card_inside hreq
    (strict_faithful card) (readTrial 512) hlen (by decide)
    (by rw [readTrial, List.length_replicate]; decide)
    (by rw [hround]; decide) hin
  have hlow : reqStart (partdata [] (2 ^ 33)) (2 ^ 32) % 2 ^ 32 = 0 := by
    decide
  have hone : (readTrial 512).disk 0 = 1 := by decide
  have htwo : (readTrial 512).disk (2 ^ 32) = 2 := by decide
  rw [hlow] at hio
  refine ⟨card_ready, card_inside, hreq, strict_faithful card, _, hio, hone,
    htwo, ?_, ?_⟩
  · rw [slice_append_head _ _ (by decide), hone]
  · rintro ⟨-, hbuf, -⟩
    have hhead := congrArg (fun b : Bytes => b[0]?) hbuf
    dsimp only at hhead
    rw [slice_append_head _ _ (by decide), slice_append_head _ _ (by decide),
      hone] at hhead
    have hstart : (partdata [] (2 ^ 33)).s + 2 ^ 32 = 2 ^ 32 := by decide
    rw [hstart, htwo] at hhead
    exact absurd hhead (by decide)

end Kirkwood.Ports.BlockStoreIo
