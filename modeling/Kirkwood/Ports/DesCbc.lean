import Kirkwood.Ports.CesaAccess

/-!
# DES on the security engine

The calls of `cesa.c` on the engine for DES and triple DES.  The engine has registers for
the command, three keys and the initial block; the cipher itself is a parameter.  Between
two calls with one state other calls may use the engine.

## Main results

* `outs_encrypt`, `outs_decrypt`: what the registers make of blocks in a row;
* `call_run`: a call chains the blocks, and leaves the last ciphertext block in `ivec`;
* `calls_inverse`: for every two ways of cutting a text, decryption gives it back;
* `ecb_inverse`: so it does without chaining.
-/

namespace Kirkwood.Ports.DesCbc

open Kirkwood.Verified
open Kirkwood.Verified.ByteMem
open Kirkwood.Verified.Blockwise
open Kirkwood.Ports.CesaWords
open Kirkwood.Ports.CesaAccess
open Kirkwood.Ports.AesCbc (load32)

/-! ## The engine -/

def xor (x y : Pair) : Pair := ⟨x.hi ^^^ y.hi, x.lo ^^^ y.lo⟩

theorem xor_xor (a b : Pair) : xor b (xor a b) = a := by
  have hword : ∀ x y : Word, y ^^^ (x ^^^ y) = x := by
    intro x y
    rw [BitVec.xor_comm x y, ← BitVec.xor_assoc, BitVec.xor_self, BitVec.zero_xor]
  cases a
  simp only [xor, hword]

/-- The cipher and its inverse, under a key. -/
structure Des where
  enc : Pair → Pair → Pair
  dec : Pair → Pair → Pair
  dec_enc : ∀ k b, dec k (enc k b) = b
  enc_dec : ∀ k b, enc k (dec k b) = b

/-- `DesReg` but for the data. -/
structure Regs where
  cmd : Word
  key0 : Pair
  key1 : Pair
  key2 : Pair
  iv : Pair
  deriving DecidableEq, Repr

/-- The keys come as `key0lo`, `key0hi` and so on. -/
def setup (cmd : Word) (keys : List Word) (iv : Option Pair) (r : Regs) : Regs :=
  match keys with
  | [lo0, hi0] => { r with cmd := cmd, key0 := ⟨hi0, lo0⟩, iv := iv.getD r.iv }
  | [lo0, hi0, lo1, hi1, lo2, hi2] =>
      { cmd := cmd
        key0 := ⟨hi0, lo0⟩
        key1 := ⟨hi1, lo1⟩
        key2 := ⟨hi2, lo2⟩
        iv := iv.getD r.iv }
  | _ => r

section
variable (c : Des)

def cipher (r : Regs) (b : Pair) : Pair :=
  if r.cmd &&& DEStriple = 0 then
    if r.cmd &&& DESdecrypt = 0 then c.enc r.key0 b else c.dec r.key0 b
  else if r.cmd &&& DESdecrypt = 0 then
    c.enc r.key2 ((if r.cmd &&& DESede = 0 then c.enc else c.dec) r.key1 (c.enc r.key0 b))
  else
    c.dec r.key0 ((if r.cmd &&& DESede = 0 then c.dec else c.enc) r.key1 (c.dec r.key2 b))

/-- A block through the engine. -/
def crypt (r : Regs) (b : Pair) : Regs × Pair :=
  if r.cmd &&& DEScbc = 0 then (r, cipher c r b)
  else if r.cmd &&& DESdecrypt = 0 then
    ({ r with iv := cipher c r (xor b r.iv) }, cipher c r (xor b r.iv))
  else ({ r with iv := b }, xor r.iv (cipher c r b))

def engine : DesEngine Regs where
  setup := setup
  crypt := crypt c
  iv := Regs.iv

/-! ## cesa.c -/

/-- `DESstate` and `DES3state` -/
structure DESstate where
  key : Mem
  ivec : Mem

abbrev DES3state := DESstate

/-- The keys are of `size` bytes; without `ivec` that of the state stays. -/
def setupState (size : Nat) (s : DESstate) (key : Mem) (ivec : Option Mem) : DESstate where
  key := overlay s.key 0 (slice key 0 size)
  ivec :=
    match ivec with
    | none => s.ivec
    | some ivec => overlay s.ivec 0 (slice ivec 0 8)

def setupDESstate0 : DESstate → Mem → Option Mem → DESstate := setupState 8

def setupDES3state0 : DES3state → Mem → Option Mem → DES3state := setupState 24

/-- The call of `des`, when the registers of the engine are `r`. -/
def call (enc triple cbc : Bool) (r : Regs) (m : Mem) (p : Int) (n : Nat) (s : DESstate) :
    Mem × DESstate :=
  let ivec := if cbc then some s.ivec else none
  let result := des (engine c) p n s.key ivec enc triple false (idle m r)
  (result.2.mem, { s with ivec := result.1.getD s.ivec })

def desECBencrypt0 := call c true false false
def desECBdecrypt0 := call c false false false
def desCBCencrypt0 := call c true false true
def desCBCdecrypt0 := call c false false true
def des3ECBencrypt0 := call c true true false
def des3ECBdecrypt0 := call c false true false
def des3CBCencrypt0 := call c true true true
def des3CBCdecrypt0 := call c false true true

end

/-- Calls on successive pieces of a text, each of some blocks and with what it finds in the
registers, and the state after each of them. -/
def calls (f : Regs → Mem → Int → Nat → DESstate → Mem × DESstate) :
    Mem → Int → DESstate → List (Nat × Regs) → Mem × List DESstate
  | m, _, _, [] => (m, [])
  | m, p, s, (k, r) :: cuts =>
      let after := f r m p (8 * k) s
      let rest := calls f after.1 (p + 8 * k) after.2 cuts
      (rest.1, after.2 :: rest.2)

/-! ## The blocks -/

section
variable {c : Des} {r : Regs}

theorem outs_encrypt (hcbc : r.cmd &&& DEScbc ≠ 0) (henc : r.cmd &&& DESdecrypt = 0)
    (bs : List Pair) :
    outs (crypt c) r bs = Cbc.encrypt xor (cipher c r) r.iv bs ∧
      (final (crypt c) r bs).iv =
        Cbc.last r.iv (Cbc.encrypt xor (cipher c r) r.iv bs) := by
  induction bs generalizing r with
  | nil => exact ⟨rfl, rfl⟩
  | cons b bs ih =>
      have hcrypt : crypt c r b =
          ({ r with iv := cipher c r (xor b r.iv) }, cipher c r (xor b r.iv)) := by
        rw [crypt, if_neg hcbc, if_pos henc]
      obtain ⟨houts, hfinal⟩ := ih (r := { r with iv := cipher c r (xor b r.iv) }) hcbc henc
      refine ⟨?_, ?_⟩
      · rw [outs, hcrypt, houts]
        rfl
      · rw [final, hcrypt, hfinal]
        exact (Cbc.last_cons ..).symm

theorem outs_decrypt (hcbc : r.cmd &&& DEScbc ≠ 0) (hdec : r.cmd &&& DESdecrypt ≠ 0)
    (bs : List Pair) :
    outs (crypt c) r bs = Cbc.decrypt xor (cipher c r) r.iv bs ∧
      (final (crypt c) r bs).iv = Cbc.last r.iv bs := by
  induction bs generalizing r with
  | nil => exact ⟨rfl, rfl⟩
  | cons b bs ih =>
      have hcrypt : crypt c r b = ({ r with iv := b }, xor r.iv (cipher c r b)) := by
        rw [crypt, if_neg hcbc, if_neg hdec]
      obtain ⟨houts, hfinal⟩ := ih (r := { r with iv := b }) hcbc hdec
      refine ⟨?_, ?_⟩
      · rw [outs, hcrypt, houts]
        rfl
      · rw [final, hcrypt, hfinal]
        exact (Cbc.last_cons ..).symm

theorem outs_ecb (hecb : r.cmd &&& DEScbc = 0) (bs : List Pair) :
    outs (crypt c) r bs = bs.map (cipher c r) := by
  induction bs with
  | nil => rfl
  | cons b bs ih =>
      have hcrypt : crypt c r b = (r, cipher c r b) := by
        rw [crypt, if_pos hecb]
      rw [outs, hcrypt, ih]
      rfl

/-- The cipher under a key of one or three times eight bytes. -/
def under (c : Des) (key : Mem) (triple enc : Bool) : Pair → Pair :=
  let k := fun i : Nat => Pair.load key (8 * i)
  if triple then
    if enc then fun b => c.enc (k 2) (c.dec (k 1) (c.enc (k 0) b))
    else fun b => c.dec (k 0) (c.enc (k 1) (c.dec (k 2) b))
  else if enc then c.enc (k 0) else c.dec (k 0)

theorem under_inverse (key : Mem) (triple : Bool) (b : Pair) :
    under c key triple false (under c key triple true b) = b := by
  cases triple with
  | false => exact c.dec_enc _ b
  | true =>
      show c.dec _ (c.enc _ (c.dec _ (c.enc _ (c.dec _ (c.enc _ b))))) = b
      rw [c.dec_enc, c.enc_dec, c.dec_enc]

theorem desCmd_flags : ∀ cbc enc triple : Bool,
    (desCmd cbc enc triple false &&& DEScbc = 0 ↔ cbc = false) ∧
      (desCmd cbc enc triple false &&& DESdecrypt = 0 ↔ enc = true) ∧
      (desCmd cbc enc triple false &&& DEStriple = 0 ↔ triple = false) ∧
      ¬ desCmd cbc enc triple false &&& DESede = 0 := by
  decide

/-- The registers at the start of a call. -/
theorem ready_cmd (key : Mem) (ivec : Option Mem) (enc triple : Bool) (r : Regs) :
    (ready (engine c) key ivec enc triple false r).cmd =
      desCmd ivec.isSome enc triple false := by
  cases triple <;> rfl

theorem ready_cipher (key : Mem) (ivec : Option Mem) (enc triple : Bool) (r : Regs) :
    cipher c (ready (engine c) key ivec enc triple false r) = under c key triple enc := by
  obtain ⟨-, hdec, htriple, hede⟩ := desCmd_flags ivec.isSome enc triple
  funext b
  unfold cipher
  simp only [ready_cmd, hdec, htriple, hede, if_false]
  cases triple <;> cases enc <;> rfl

theorem ready_iv (key ivec : Mem) (enc triple : Bool) (r : Regs) :
    (ready (engine c) key (some ivec) enc triple false r).iv = Pair.load ivec 0 := by
  cases triple <;> rfl

/-! ## A call -/

/-- What is left in `ivec`. -/
theorem des_ivec {n : Nat} (hn : n ≠ 0) (r : Regs) (m : Mem) (p : Int) (key : Mem)
    (ivec : Option Mem) (enc triple : Bool) :
    (des (engine c) p n key ivec enc triple false (idle m r)).1 =
      ivec.map fun iv => Pair.store iv 0
        (des (engine c) p n key ivec enc triple false (idle m r)).2.engine.iv := by
  rw [des, if_neg hn]
  rfl

theorem turns_eq (k : Nat) : turns pair (8 * k) = k := by
  have hdvd : pair.size ∣ 8 * k := ⟨k, rfl⟩
  exact (turns_dvd hdvd).trans (Nat.mul_div_cancel_left k (by decide))

/-- What a text is replaced by. -/
def chain (f : Pair → Pair) (enc : Bool) (v : Pair) (bs : List Pair) : List Pair :=
  if enc then Cbc.encrypt xor f v bs else Cbc.decrypt xor f v bs

/-- The ciphertext, when a text is given. -/
def ciphertext (f : Pair → Pair) (enc : Bool) (v : Pair) (bs : List Pair) : List Pair :=
  if enc then Cbc.encrypt xor f v bs else bs

/-- The block that the chain goes on from. -/
def chainEnd (f : Pair → Pair) (enc : Bool) (v : Pair) (bs : List Pair) : Pair :=
  Cbc.last v (ciphertext f enc v bs)

theorem outs_chain (key ivec : Mem) (enc triple : Bool) (r : Regs) (bs : List Pair) :
    let r := ready (engine c) key (some ivec) enc triple false r
    outs (crypt c) r bs = chain (under c key triple enc) enc (Pair.load ivec 0) bs ∧
      (final (crypt c) r bs).iv =
        chainEnd (under c key triple enc) enc (Pair.load ivec 0) bs := by
  intro r'
  obtain ⟨hcbc, hdec, -, -⟩ := desCmd_flags true enc triple
  have hcmd : r'.cmd = desCmd true enc triple false :=
    ready_cmd key (some ivec) enc triple r
  rw [← hcmd] at hcbc hdec
  have hchained : r'.cmd &&& DEScbc ≠ 0 := fun h => Bool.noConfusion (hcbc.1 h)
  have hcipher : cipher c r' = under c key triple enc := ready_cipher ..
  have hiv : r'.iv = Pair.load ivec 0 := ready_iv ..
  rw [← hcipher, ← hiv]
  cases enc with
  | true => exact outs_encrypt hchained (hdec.2 rfl) bs
  | false => exact outs_decrypt hchained (fun h => Bool.noConfusion (hdec.1 h)) bs

private theorem putAll_run (m : Mem) (p : Int) {k : Nat} {bs : List Pair}
    (hlen : bs.length = k) :
    blocks pair (putAll pair m p bs) p k = bs ∧
      ∀ x, x < p ∨ p + 8 * k ≤ x → putAll pair m p bs x = m x := by
  subst hlen
  exact ⟨blocks_putAll (c := pair) m p bs, fun _ hx => putAll_outside m p bs hx⟩

/-- A call chains the blocks, whatever the registers have. -/
theorem call_run (c : Des) (enc triple : Bool) (r : Regs) (m : Mem) (p : Int) (k : Nat)
    (s : DESstate) :
    let f := under c s.key triple enc
    let v := Pair.load s.ivec 0
    let after := call c enc triple true r m p (8 * k) s
    after.2.key = s.key ∧
      blocks pair after.1 p k = chain f enc v (blocks pair m p k) ∧
      Pair.load after.2.ivec 0 = chainEnd f enc v (blocks pair m p k) ∧
      ∀ x, x < p ∨ p + 8 * k ≤ x → after.1 x = m x := by
  intro f v after
  obtain ⟨houts, hiv⟩ := outs_chain s.key s.ivec enc triple r (blocks pair m p k)
  have hrun := des_run (engine c) r m p (8 * k) s.key (some s.ivec) enc triple false
  rw [turns_eq] at hrun
  have hmem : after.1 = putAll pair m p (chain f enc v (blocks pair m p k)) := by
    rw [← houts]
    exact congrArg World.mem hrun
  have hlen : (chain f enc v (blocks pair m p k)).length = k := by
    rw [← houts, outs_length, blocks_length]
  obtain ⟨hput, hframe⟩ := putAll_run m p hlen
  rw [← hmem] at hput hframe
  refine ⟨rfl, hput, ?_, hframe⟩
  cases k with
  | zero => cases enc <;> rfl
  | succ k =>
      have hn : 8 * (k + 1) ≠ 0 := Nat.succ_ne_zero _
      have hivec : after.2.ivec = Pair.store s.ivec 0
          (final (crypt c) (ready (engine c) s.key (some s.ivec) enc triple false r)
            (blocks pair m p (k + 1))).iv := by
        show Option.getD (des (engine c) p (8 * (k + 1)) s.key (some s.ivec) enc triple
          false (idle m r)).1 s.ivec = _
        rw [des_ivec hn, hrun, if_neg hn]
        rfl
      rw [hivec, Pair.load_store, hiv]

theorem call_ecb (c : Des) (enc triple : Bool) (r : Regs) (m : Mem) (p : Int) (k : Nat)
    (s : DESstate) :
    let after := call c enc triple false r m p (8 * k) s
    blocks pair after.1 p k = (blocks pair m p k).map (under c s.key triple enc) ∧
      ∀ x, x < p ∨ p + 8 * k ≤ x → after.1 x = m x := by
  intro after
  have hcmd := ready_cmd (c := c) s.key none enc triple r
  have hecb := (desCmd_flags false enc triple).1.2 rfl
  have houts := outs_ecb (c := c)
    (r := ready (engine c) s.key none enc triple false r) (by rw [hcmd]; exact hecb)
      (blocks pair m p k)
  rw [ready_cipher] at houts
  have hrun := des_run (engine c) r m p (8 * k) s.key none enc triple false
  rw [turns_eq] at hrun
  have hmem : after.1 = putAll pair m p
      ((blocks pair m p k).map (under c s.key triple enc)) := by
    rw [← houts]
    exact congrArg World.mem hrun
  have hlen : ((blocks pair m p k).map (under c s.key triple enc)).length = k := by
    rw [List.length_map, blocks_length]
  rw [hmem]
  exact putAll_run m p hlen

/-! ## Texts in pieces -/

theorem chain_append (f : Pair → Pair) (enc : Bool) (v : Pair) (bs ds : List Pair) :
    chain f enc v (bs ++ ds) =
      chain f enc v bs ++ chain f enc (chainEnd f enc v bs) ds := by
  cases enc with
  | true => exact Cbc.encrypt_append v bs ds
  | false => exact Cbc.decrypt_append v bs ds

theorem ciphertext_append (f : Pair → Pair) (enc : Bool) (v : Pair) (bs ds : List Pair) :
    ciphertext f enc v (bs ++ ds) =
      ciphertext f enc v bs ++ ciphertext f enc (chainEnd f enc v bs) ds := by
  cases enc with
  | true => exact Cbc.encrypt_append v bs ds
  | false => rfl

theorem ciphertext_length (f : Pair → Pair) (enc : Bool) (v : Pair) (bs : List Pair) :
    (ciphertext f enc v bs).length = bs.length := by
  cases enc with
  | true => exact Cbc.encrypt_length v bs
  | false => rfl

/-- The number of blocks of a cutting. -/
def total (cuts : List (Nat × Regs)) : Nat := (cuts.map Prod.fst).sum

/-- After each call of a cutting of the ciphertext `cs`, `ivec` is the last block so far,
`v` if there is none. -/
def IvecsRight : Pair → List Pair → List (Nat × Regs) → List DESstate → Prop
  | _, _, [], [] => True
  | v, cs, (k, _) :: cuts, s :: states =>
      Pair.load s.ivec 0 = Cbc.last v (cs.take k) ∧
        IvecsRight (Cbc.last v (cs.take k)) (cs.drop k) cuts states
  | _, _, _, _ => False

/-- Successive calls chain the text as one call would. -/
theorem calls_run (c : Des) (enc triple : Bool) (cuts : List (Nat × Regs)) (m : Mem)
    (p : Int) (s : DESstate) :
    let f := under c s.key triple enc
    let v := Pair.load s.ivec 0
    let text := blocks pair m p (total cuts)
    let after := calls (call c enc triple true) m p s cuts
    blocks pair after.1 p (total cuts) = chain f enc v text ∧
      (∀ x, x < p ∨ p + 8 * total cuts ≤ x → after.1 x = m x) ∧
      IvecsRight v (ciphertext f enc v text) cuts after.2 := by
  induction cuts generalizing m p s with
  | nil =>
      refine ⟨?_, fun _ _ => rfl, ?_⟩
      · cases enc <;> rfl
      · cases enc <;> exact trivial
  | cons cut cuts ih =>
      obtain ⟨k, r⟩ := cut
      intro f v text after
      obtain ⟨hkey, hblocks, hivec, hframe⟩ := call_run c enc triple r m p k s
      obtain ⟨hrest, houtside, hright⟩ :=
        ih (call c enc triple true r m p (8 * k) s).1 (p + 8 * k)
          (call c enc triple true r m p (8 * k) s).2
      have htotal : total ((k, r) :: cuts) = k + total cuts := rfl
      have htext : text = blocks pair m p k ++ blocks pair m (p + 8 * k) (total cuts) :=
        blocks_add m p k (total cuts)
      have hbehind : blocks pair (call c enc triple true r m p (8 * k) s).1 (p + 8 * k)
          (total cuts) = blocks pair m (p + 8 * k) (total cuts) :=
        blocks_congr fun x hx _ => hframe x (.inr hx)
      rw [hkey, hivec, hbehind] at hrest hright
      refine ⟨?_, fun x hx => ?_, ?_⟩
      · have hfirst : blocks pair after.1 p k =
            blocks pair (call c enc triple true r m p (8 * k) s).1 p k :=
          blocks_congr fun x _ hx => houtside x (.inl hx)
        have hsplit : blocks pair after.1 p (k + total cuts) = blocks pair after.1 p k ++
            blocks pair after.1 (p + 8 * k) (total cuts) := blocks_add ..
        rw [htotal, htext, chain_append, hsplit, hfirst, hblocks]
        exact congrArg _ hrest
      · rw [htotal] at hx
        exact (houtside x (by omega)).trans (hframe x (by omega))
      · have hlen : (ciphertext f enc v (blocks pair m p k)).length = k := by
          rw [ciphertext_length, blocks_length]
        rw [htext, ciphertext_append]
        refine ⟨?_, ?_⟩
        · rw [List.take_left' hlen]
          exact hivec
        · rw [List.take_left' hlen, List.drop_left' hlen]
          exact hright

/-! ## There and back -/

private theorem word_inj {m m' : Mem} {q : Int} (h : load32 m q = load32 m' q) :
    m q = m' q ∧ m (q + 1) = m' (q + 1) ∧ m (q + 2) = m' (q + 2) ∧
      m (q + 3) = m' (q + 3) := by
  have hbytes := congrArg p32 h
  unfold load32 at hbytes
  rw [p32_g32, p32_g32] at hbytes
  simpa using hbytes

theorem pair_inj {m m' : Mem} {q : Int} (h : Pair.load m q = Pair.load m' q) :
    ∀ x, q ≤ x → x < q + pair.size → m x = m' x := by
  obtain ⟨hhi, hlo⟩ := Pair.mk.inj h
  obtain ⟨a0, a1, a2, a3⟩ := word_inj hhi
  obtain ⟨b0, b1, b2, b3⟩ := word_inj hlo
  intro x hx hx'
  have hx'' : x < q + 8 := hx'
  have hcases : x = q ∨ x = q + 1 ∨ x = q + 2 ∨ x = q + 3 ∨ x = q + 4 ∨ x = q + 4 + 1 ∨
      x = q + 4 + 2 ∨ x = q + 4 + 3 := by omega
  rcases hcases with rfl | rfl | rfl | rfl | rfl | rfl | rfl | rfl <;> assumption

/-- What is set up is what was given. -/
theorem setup_load (m m' : Mem) {size : Nat} {q : Int} (hq : 0 ≤ q) (hsize : q + 8 ≤ size) :
    Pair.load (overlay m 0 (slice m' 0 size)) q = Pair.load m' q := by
  refine pair.load_congr fun x hx hx' => ?_
  have hx'' : x < q + 8 := hx'
  obtain ⟨i, rfl⟩ := Int.eq_ofNat_of_zero_le (Int.le_trans hq hx)
  have hi : i < (slice m' 0 size).length := by
    rw [slice_length]
    omega
  have hin := overlay_inside m 0 (slice m' 0 size) i hi
  simp only [slice_getElem, Int.zero_add] at hin
  exact hin

theorem under_congr {key key' : Mem} (triple enc : Bool)
    (h : ∀ i : Nat, i < (if triple then 3 else 1) →
      Pair.load key (8 * i) = Pair.load key' (8 * i)) :
    under c key triple enc = under c key' triple enc := by
  unfold under
  cases triple with
  | false =>
      have h0 := h 0 (by decide)
      simp only [Bool.false_eq_true, if_false]
      rw [h0]
  | true =>
      have h0 := h 0 (by decide)
      have h1 := h 1 (by decide)
      have h2 := h 2 (by decide)
      simp only [if_true]
      rw [h0, h1, h2]

theorem setup_under (c : Des) (s : DESstate) (key : Mem) (ivec : Option Mem)
    (triple enc : Bool) :
    under c (setupState (if triple then 24 else 8) s key ivec).key triple enc =
      under c key triple enc := by
  refine under_congr triple enc fun i hi => setup_load s.key key (by omega) ?_
  have hsize : 8 * i + 8 ≤ if triple then 24 else 8 := by
    cases triple
    · have hi' : i < 1 := hi
      show 8 * i + 8 ≤ 8
      omega
    · have hi' : i < 3 := hi
      show 8 * i + 8 ≤ 24
      omega
  exact_mod_cast hsize

/-- **There and back.** Whatever else uses the engine in between, the text is encrypted as
one, decryption gives it back from the same start, and after each call `ivec` is the
ciphertext block to go on from. -/
theorem calls_inverse (c : Des) (triple : Bool) (m key ivec : Mem) (p : Int) (s : DESstate)
    {cuts cuts' : List (Nat × Regs)} (htotal : total cuts = total cuts') :
    let s := setupState (if triple then 24 else 8) s key (some ivec)
    let text := Cbc.encrypt xor (under c key triple true) (Pair.load ivec 0)
      (blocks pair m p (total cuts))
    let encrypted := calls (call c true triple true) m p s cuts
    let decrypted := calls (call c false triple true) encrypted.1 p s cuts'
    blocks pair encrypted.1 p (total cuts) = text ∧
      IvecsRight (Pair.load ivec 0) text cuts encrypted.2 ∧
      IvecsRight (Pair.load ivec 0) text cuts' decrypted.2 ∧ decrypted.1 = m := by
  intro s' text encrypted decrypted
  have hiv : Pair.load s'.ivec 0 = Pair.load ivec 0 :=
    setup_load s.ivec ivec (Int.le_refl 0) (by decide)
  have hunder : ∀ enc, under c s'.key triple enc = under c key triple enc :=
    setup_under c s key (some ivec) triple
  obtain ⟨htext, hout, hright⟩ := calls_run c true triple cuts m p s'
  obtain ⟨hback, hout', hright'⟩ := calls_run c false triple cuts' encrypted.1 p s'
  rw [hiv, hunder] at htext hright hback hright'
  rw [← htotal] at hback hout' hright'
  have hcipher : blocks pair encrypted.1 p (total cuts) = text := htext
  rw [hcipher] at hback hright'
  have hplain : blocks pair decrypted.1 p (total cuts) = blocks pair m p (total cuts) :=
    hback.trans (Cbc.decrypt_encrypt xor_xor (under_inverse key triple) _ _)
  exact ⟨hcipher, hright, hright', mem_eq (fun _ => pair_inj) hplain
    fun x hx => (hout' x hx).trans (hout x hx)⟩

private theorem xor_key (k b : Pair) : xor k (xor k b) = b := by
  have hcomm : xor k b = xor b k :=
    congrArg₂ Pair.mk (BitVec.xor_comm ..) (BitVec.xor_comm ..)
  rw [hcomm, xor_xor]

theorem calls_inverse_sample :
    let c : Des := ⟨xor, xor, xor_key, xor_key⟩
    let r : Regs := ⟨0, ⟨1, 2⟩, ⟨3, 4⟩, ⟨5, 6⟩, ⟨7, 8⟩⟩
    let bytes : Mem := fun x => UInt8.ofNat x.toNat
    let s := setupDES3state0 ⟨bytes, bytes⟩ bytes (some bytes)
    let encrypted := calls (des3CBCencrypt0 c) bytes 0 s [(1, r), (2, r)]
    (calls (des3CBCdecrypt0 c) encrypted.1 0 s [(2, r), (1, r)]).1 = bytes := by
  intro c r bytes s encrypted
  have htotal : total [(1, r), (2, r)] = total [(2, r), (1, r)] := rfl
  have h := calls_inverse c true bytes bytes bytes 0 ⟨bytes, bytes⟩ htotal
  exact h.2.2.2

/-- Without chaining each call stands for itself. -/
theorem ecb_inverse (c : Des) (triple : Bool) (r r' : Regs) (m : Mem) (p : Int) (k : Nat)
    (s : DESstate) :
    (call c false triple false r' (call c true triple false r m p (8 * k) s).1 p (8 * k)
      s).1 = m := by
  obtain ⟨htext, hout⟩ := call_ecb c true triple r m p k s
  obtain ⟨hback, hout'⟩ :=
    call_ecb c false triple r' (call c true triple false r m p (8 * k) s).1 p k s
  rw [htext, List.map_map] at hback
  have hid : under c s.key triple false ∘ under c s.key triple true = id :=
    funext (under_inverse s.key triple)
  rw [hid, List.map_id] at hback
  exact mem_eq (fun _ => pair_inj) hback fun x hx => (hout' x hx).trans (hout x hx)

end

end Kirkwood.Ports.DesCbc
