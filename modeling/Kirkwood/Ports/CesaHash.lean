import Kirkwood.Verified.Blocks
import Kirkwood.Verified.CInt
import Kirkwood.Ports.CesaWords

/-!
# SHA-1 and MD5 on the security engine

`hash` of `cesa.c` takes a text in successive calls.  It fills a buffer of one
block, feeds whole blocks to the engine, and keeps the tail for the next call;
the last call pads.  The engine is a parameter: for each of the two functions
its first chaining value and what it makes of a chaining value and a block.

## Main results

* `hashexec_fed`, `hashfinish_fed`: the blocks that one call feeds, and the
  values they are chained from;
* `digest_fed`: what all the calls together feed;
* `digest_standard_iff`: the engine is fed the standard padding of the whole
  text exactly when, in every call, what follows the whole blocks equals the
  start of what the call still had.

Whole blocks are taken from the caller's buffer without advancing the pointer
into it, and the tail is taken from where that pointer still is.
-/

namespace Kirkwood.Ports.CesaHash

open Kirkwood.Verified.ByteMem
open Kirkwood.Verified.Blocks
open Kirkwood.Verified.CInt
open Kirkwood.Ports.CesaWords

/-! ## The engine -/

/-- The command register: `HASHsha1` or else `HASHmd5|HASHbyteswap`, and
`HASHcontinue`. -/
structure HashCmd where
  sha1 : Bool
  cont : Bool
  deriving DecidableEq, Repr

/-- The words of a chaining value. -/
def nw (sha1 : Bool) : Nat := if sha1 then 5 else 4

/-- Under either command, the words that are written stand for their bytes, the
most significant one first. -/
structure Engine where
  init : Bool → List Word
  compress : Bool → List Word → Bytes → List Word
  init_length : ∀ sha1, (init sha1).length = nw sha1
  compress_length : ∀ sha1 v b, (compress sha1 v b).length = nw sha1

/-- `HashReg`; `block` is what was written since the command, and `fed` lists the
blocks that were compressed, each with the value it was chained from. -/
structure HashReg where
  cmd : HashCmd
  block : Bytes
  iv : List Word
  fed : List (List Word × Bytes)

/-- What the next block is chained from: with `HASHcontinue` it is `iv`. -/
def HashReg.value (eng : Engine) (r : HashReg) : List Word :=
  if r.cmd.cont then r.iv.take (nw r.cmd.sha1) else eng.init r.cmd.sha1

/-- `r->cmd = cmd` -/
def setcmd (cmd : HashCmd) (r : HashReg) : HashReg :=
  { r with cmd := cmd, block := [] }

def compressed (eng : Engine) (r : HashReg) (b : Bytes) : HashReg :=
  { r with
    block := []
    iv := eng.compress r.cmd.sha1 (r.value eng) b ++ r.iv.drop (nw r.cmd.sha1)
    fed := r.fed ++ [(r.value eng, b)] }

/-- `r->data = w`; the sixteenth word completes the block. -/
def data (eng : Engine) (r : HashReg) (w : Word) : HashReg :=
  let b := r.block ++ p32 w
  if b.length = 64 then compressed eng r b else { r with block := b }

/-- `r->bitcountlo = lo; r->bitcounthi = hi`, which fills up the block. -/
def bitcount (eng : Engine) (r : HashReg) (lo hi : Word) : HashReg :=
  compressed eng r
    (r.block ++ List.replicate (56 - r.block.length) 0 ++ p32 lo ++ p32 hi)

/-! ## The code -/

/-- `DigestState`; `buf` are its first `blen` bytes. -/
structure DigestState where
  len : BitVec 64
  buf : Bytes
  state : List Word
  seeded : Bool

/-- What `hash` makes when it is given no state. -/
def DigestState.new : DigestState :=
  { len := 0, buf := [], state := [], seeded := false }

/-- `Buf`; `p` is the text from the pointer on. -/
structure Buf where
  p : Bytes
  n : Nat
  finish : Bool

/-- `g32(p)` -/
def word (p : Bytes) : Word :=
  g32 (p.getD 0 0) (p.getD 1 0) (p.getD 2 0) (p.getD 3 0)

/-- `for(; p < e; p += 4) r->data = g32(p)`, with `k` turns. -/
def words (eng : Engine) : Nat → Bytes → HashReg → HashReg
  | 0, _, r => r
  | k + 1, p, r => words eng k (p.drop 4) (data eng r (word p))

/-- The word with the last bytes of the text and `0x80`; `k` turns are left. -/
def lastWord : Nat → Nat → Word → Bytes → Word
  | 0, i, v, _ => v ||| 0x80#32 <<< ((4 - 1 - i) * 8)
  | k + 1, i, v, p =>
      lastWord k (i + 1) (v ||| widen (p.getD 0 0) <<< ((4 - 1 - i) * 8)) (p.drop 1)

/-- `nb>>32` -/
def high (nb : BitVec 64) : Word := (nb >>> 32).setWidth 32

/-- `nb>>0` -/
def low (nb : BitVec 64) : Word := nb.setWidth 32

/-- The digest of a chaining value. -/
def output (sha1 : Bool) (iv : List Word) : Bytes :=
  iv.flatMap fun w => if sha1 then p32 w else p32le w

def hashfinish (eng : Engine) (cmd : HashCmd) (p : Bytes) (n : Nat) (sha1 : Bool)
    (nb : BitVec 64) (r : HashReg) : HashReg × Bytes :=
  -- both branches of the test below start with this
  let r := words eng (n / 4) p (setcmd cmd r)
  let r := data eng r (lastWord (n % 4) 0 0 (p.drop (4 * (n / 4))))
  let r :=
    if n + 1 > 56 then
      let r := if n + 1 ≤ 60 then data eng r 0 else r
      setcmd { cmd with cont := true } r
    else r
  let r :=
    if sha1 then bitcount eng r (high nb) (low nb)
    else bitcount eng r (swap (low nb)) (swap (high nb))
  (r, output sha1 (r.iv.take (nw sha1)))

/-- `while(n >= 64)`, with `k` turns. -/
def blockLoop (eng : Engine) : Nat → HashCmd → Bytes → HashReg → HashCmd × HashReg
  | 0, cmd, _, r => (cmd, r)
  | k + 1, cmd, p, r =>
      blockLoop eng k { cmd with cont := true } (p.drop 64)
        (words eng 16 p (setcmd cmd r))

/-- The turns for `b->n`, which is an `ulong` and is assigned to an `int`. -/
def turns (n : Nat) : Nat := (long n / 64).toNat

/-- `for(i = 0; i < nbufs && !bufs[i].finish; i++)`, and the buffer it stops at. -/
def bufLoop (eng : Engine) :
    List Buf → HashCmd → HashReg → (HashCmd × HashReg) × Option Buf
  | [], cmd, r => ((cmd, r), none)
  | b :: bufs, cmd, r =>
      if b.finish then ((cmd, r), some b)
      else
        let out := blockLoop eng (turns b.n) cmd b.p r
        bufLoop eng bufs out.1 out.2

/-- The result has what is written to `digest`. -/
def hashexec (eng : Engine) (bufs : List Buf) (s : DigestState) (sha1 : Bool)
    (r : HashReg) : DigestState × HashReg × Option Bytes :=
  let cmd : HashCmd := { sha1 := sha1, cont := s.seeded }
  let r := if s.seeded then { r with iv := s.state ++ r.iv.drop (nw sha1) } else r
  let s := { s with seeded := true }
  match bufLoop eng bufs cmd r with
  | ((cmd, r), some b) =>
      let (r, digest) := hashfinish eng cmd b.p b.n sha1 (s.len * 8) r
      (s, r, some digest)
  | ((_, r), none) => ({ s with state := r.iv.take (nw sha1) }, r, none)

/-- `if(s->blen > 0)`: the state, what is left of the text, and the full block. -/
def fill (s : DigestState) (p : Bytes) : DigestState × Bytes × List Buf :=
  if 0 < s.buf.length then
    let n := min (64 - s.buf.length) p.length
    let buf := s.buf ++ p.take n
    if buf.length = 64 then
      ({ s with buf := [] }, p.drop n, [{ p := buf, n := 64, finish := false }])
    else ({ s with buf := buf }, p.drop n, [])
  else (s, p, [])

/-- `if(len >= 64)`; `p` stays where it is. -/
def whole (p : Bytes) : List Buf :=
  if 64 ≤ p.length then
    [{ p := p, n := p.length - p.length % 64, finish := false }]
  else []

/-- `if(digest != nil)` -/
def final (s : DigestState) (p : Bytes) (digest : Bool) : List Buf :=
  if digest then
    if 0 < p.length % 64 then [{ p := p, n := p.length % 64, finish := true }]
    else [{ p := s.buf, n := s.buf.length, finish := true }]
  else []

def nblocks (bufs : List Buf) : Nat :=
  (bufs.map fun b => if b.finish then 1 else b.n / 64).sum

/-- `hash`; `digest` says whether there is room for one. -/
def hash (eng : Engine) (p : Bytes) (digest : Bool) (s : DigestState) (sha1 : Bool)
    (r : HashReg) : DigestState × HashReg × Option Bytes :=
  let s := { s with len := s.len + BitVec.ofNat 64 p.length }
  let (s, p, full) := fill s p
  let bufs := full ++ whole p ++ final s p digest
  let len := p.length % 64
  let (s, r, out) :=
    if 0 < nblocks bufs then hashexec eng bufs s sha1 r else (s, r, none)
  let s := if ¬ digest ∧ 0 < len then { s with buf := p.take len } else s
  (s, r, out)

/-- A call of `hash`: the text, whose length is an `ulong`, and what the call
finds in the engine. -/
structure Call where
  p : Bytes
  fits : p.length < 2 ^ 32
  cmd : HashCmd
  block : Bytes
  iv : List Word

/-- The engine as a call finds it, after the blocks of the calls before. -/
def Call.reg (c : Call) (fed : List (List Word × Bytes)) : HashReg :=
  { cmd := c.cmd, block := c.block, iv := c.iv, fed := fed }

/-- Successive calls without a digest. -/
def calls (eng : Engine) (sha1 : Bool) :
    List Call → DigestState → List (List Word × Bytes) →
      DigestState × List (List Word × Bytes)
  | [], s, fed => (s, fed)
  | c :: cs, s, fed =>
      let (s, r, _) := hash eng c.p false s sha1 (c.reg fed)
      calls eng sha1 cs s r.fed

/-- The calls `cs`, and `last` with a digest: what was fed, and the digest. -/
def digest (eng : Engine) (sha1 : Bool) (cs : List Call) (last : Call) :
    List (List Word × Bytes) × Option Bytes :=
  let (s, fed) := calls eng sha1 cs DigestState.new []
  let (_, r, out) := hash eng last.p true s sha1 (last.reg fed)
  (r.fed, out)

/-! ## The standard -/

/-- The bit count of `n` bytes, in the byte order of the function. -/
def count (sha1 : Bool) (n : Nat) : Bytes :=
  let byte := fun k : Nat => (⟨(BitVec.ofNat 64 (8 * n) >>> k).setWidth 8⟩ : UInt8)
  if sha1 then [56, 48, 40, 32, 24, 16, 8, 0].map byte
  else [0, 8, 16, 24, 32, 40, 48, 56].map byte

/-- What is appended to a message of `n` bytes. -/
def tail (sha1 : Bool) (n : Nat) : Bytes :=
  0x80 :: List.replicate ((119 - n % 64) % 64) 0 ++ count sha1 n

def pad (sha1 : Bool) (m : Bytes) : Bytes := m ++ tail sha1 m.length

/-- The blocks of the padded message, each chained from the one before, and the
digest of the last value. -/
def Standard (eng : Engine) (sha1 : Bool) (m : Bytes)
    (out : List (List Word × Bytes) × Option Bytes) : Prop :=
  let blocks := cut 64 (pad sha1 m)
  out.1 = feed (eng.compress sha1) (eng.init sha1) blocks ∧
    out.2 = some (output sha1 (blocks.foldl (eng.compress sha1) (eng.init sha1)))

/-- The text that the calls have in all. -/
def text (cs : List Call) : Bytes := (cs.map Call.p).flatten

/-- The bytes that fill up the buffer when `o` bytes came before. -/
def filled (o : Nat) (p : Bytes) : Nat :=
  if 0 < o % 64 then min (64 - o % 64) p.length else 0

/-- Of what the call still has after that, the whole blocks have fewer than `2^31`
bytes, and what follows them is what they start with. -/
def Right (o : Nat) (p : Bytes) : Prop :=
  let q := p.drop (filled o p)
  q.length - q.length % 64 < 2 ^ 31 ∧
    q.drop (q.length - q.length % 64) = q.take (q.length % 64)

def AllRight : Nat → List Call → Prop
  | _, [] => True
  | o, c :: cs => Right o c.p ∧ AllRight (o + c.p.length) cs

/-! ## Words and blocks -/

private theorem uchar_high (nb : BitVec 64) (k : Nat) :
    uchar (high nb) k = ⟨(nb >>> (32 + k)).setWidth 8⟩ := by
  apply UInt8.toBitVec_inj.1
  apply BitVec.eq_of_getLsbD_eq
  intro i hi
  simp only [uchar, high, BitVec.getLsbD_setWidth, BitVec.getLsbD_ushiftRight]
  grind

private theorem uchar_low (nb : BitVec 64) (k : Nat) (hk : k ≤ 24) :
    uchar (low nb) k = ⟨(nb >>> k).setWidth 8⟩ := by
  apply UInt8.toBitVec_inj.1
  apply BitVec.eq_of_getLsbD_eq
  intro i hi
  simp only [uchar, low, BitVec.getLsbD_setWidth, BitVec.getLsbD_ushiftRight]
  grind

/-- The two words of the bit count stand for its bytes. -/
theorem count_words (sha1 : Bool) (n : Nat) :
    let nb := BitVec.ofNat 64 (8 * n)
    (if sha1 then p32 (high nb) ++ p32 (low nb)
      else p32 (swap (low nb)) ++ p32 (swap (high nb))) = count sha1 n := by
  intro nb
  have hhigh := uchar_high nb
  have hlow := uchar_low nb
  cases sha1 with
  | false =>
      show p32 (swap (low nb)) ++ p32 (swap (high nb)) = _
      rw [p32_swap, p32_swap]
      simp [p32le, count, hhigh, hlow, nb]
  | true =>
      show p32 (high nb) ++ p32 (low nb) = _
      simp [p32, count, hhigh, hlow, nb]

theorem count_length (sha1 : Bool) (n : Nat) : (count sha1 n).length = 8 := by
  cases sha1 <;> rfl

theorem p32_word {p : Bytes} (h : 4 ≤ p.length) : p32 (word p) = p.take 4 := by
  match p, h with
  | b0 :: b1 :: b2 :: b3 :: p, _ => exact p32_g32 b0 b1 b2 b3

private theorem lastWord_eq (k : Nat) (hk : k < 4) (b0 b1 b2 : UInt8) (p : Bytes) :
    lastWord k 0 0 ([b0, b1, b2].take k ++ p) =
      match k with
      | 0 => g32 0x80 0 0 0
      | 1 => g32 b0 0x80 0 0
      | 2 => g32 b0 b1 0x80 0
      | _ => g32 b0 b1 b2 0x80 := by
  have hmark : widen 0x80 = 0x80#32 := by decide
  have hzero : widen 0 = 0#32 := by decide
  match k, hk with
  | 0, _ => simp [lastWord, g32, hmark, hzero]
  | 1, _ => simp [lastWord, g32, hmark, hzero]
  | 2, _ => simp [lastWord, g32, hmark, hzero]
  | 3, _ => simp [lastWord, g32, hmark]

/-- The last word has what is left of the text, `0x80` and zeros. -/
theorem p32_lastWord {p : Bytes} {k : Nat} (hk : k < 4) (hp : k ≤ p.length) :
    p32 (lastWord k 0 0 p) = p.take k ++ 0x80 :: List.replicate (3 - k) 0 := by
  match k, hk, p, hp with
  | 0, hk, p, _ =>
      have hword := lastWord_eq 0 hk 0 0 0 p
      exact (congrArg p32 hword).trans (p32_g32 _ _ _ _)
  | 1, hk, b0 :: p, _ =>
      have hword := lastWord_eq 1 hk b0 0 0 p
      exact (congrArg p32 hword).trans (p32_g32 _ _ _ _)
  | 2, hk, b0 :: b1 :: p, _ =>
      have hword := lastWord_eq 2 hk b0 b1 0 p
      exact (congrArg p32 hword).trans (p32_g32 _ _ _ _)
  | 3, hk, b0 :: b1 :: b2 :: p, _ =>
      have hword := lastWord_eq 3 hk b0 b1 b2 p
      exact (congrArg p32 hword).trans (p32_g32 _ _ _ _)

theorem data_short (eng : Engine) {r : HashReg} {w : Word}
    (h : r.block.length + 4 < 64) :
    data eng r w = { r with block := r.block ++ p32 w } := by
  unfold data
  rw [if_neg]
  rw [List.length_append, p32_length]
  omega

theorem data_full (eng : Engine) {r : HashReg} {w : Word}
    (h : r.block.length + 4 = 64) :
    data eng r w = compressed eng r (r.block ++ p32 w) := by
  unfold data
  rw [if_pos]
  rw [List.length_append, p32_length]
  exact h

private theorem take_words (p : Bytes) (k : Nat) :
    p.take (4 * (k + 1)) = p.take 4 ++ (p.drop 4).take (4 * k) := by
  rw [Nat.mul_succ, Nat.add_comm, List.take_add]

theorem words_short (eng : Engine) {k : Nat} {p : Bytes} {r : HashReg}
    (hp : 4 * k ≤ p.length) (hr : r.block.length + 4 * k < 64) :
    words eng k p r = { r with block := r.block ++ p.take (4 * k) } := by
  induction k generalizing p r with
  | zero =>
      rw [Nat.mul_zero, List.take_zero, List.append_nil]
      rfl
  | succ k ih =>
      have hlen : (r.block ++ p.take 4).length = r.block.length + 4 := by
        rw [List.length_append, List.length_take]
        omega
      have hdrop : 4 * k ≤ (p.drop 4).length := by
        rw [List.length_drop]
        omega
      have hrest := ih (r := { r with block := r.block ++ p.take 4 }) hdrop
        (by show (r.block ++ p.take 4).length + 4 * k < 64; omega)
      unfold words
      rw [data_short eng (by omega), p32_word (by omega), hrest, take_words,
        ← List.append_assoc]

private theorem words_snoc (eng : Engine) (k : Nat) (p : Bytes) (r : HashReg) :
    words eng (k + 1) p r = data eng (words eng k p r) (word (p.drop (4 * k))) := by
  induction k generalizing p r with
  | zero => rfl
  | succ k ih =>
      have hdrop : (p.drop 4).drop (4 * k) = p.drop (4 * (k + 1)) := by
        rw [List.drop_drop, Nat.mul_succ, Nat.add_comm]
      calc
        words eng (k + 1 + 1) p r
            = words eng (k + 1) (p.drop 4) (data eng r (word p)) := rfl
        _ = data eng (words eng (k + 1) p r) (word (p.drop (4 * (k + 1)))) := by
            rw [ih, hdrop]
            rfl

/-- Sixteen words are a block. -/
theorem words_block (eng : Engine) {p : Bytes} {r : HashReg} (hp : 64 ≤ p.length)
    (hr : r.block = []) : words eng 16 p r = compressed eng r (p.take 64) := by
  have hfirst : words eng 15 p r = { r with block := p.take 60 } := by
    rw [words_short eng (by omega) (by rw [hr]; decide), hr]
    rfl
  have hlast : p32 (word (p.drop 60)) = (p.drop 60).take 4 := by
    apply p32_word
    rw [List.length_drop]
    omega
  have hlen : (p.take 60).length + 4 = 64 := by
    rw [List.length_take]
    omega
  calc
    words eng 16 p r = data eng (words eng 15 p r) (word (p.drop 60)) :=
        words_snoc eng 15 p r
    _ = compressed eng r (p.take 60 ++ (p.drop 60).take 4) := by
        rw [hfirst, data_full eng hlen, hlast]
        rfl
    _ = compressed eng r (p.take 64) := by rw [← List.take_add]

/-! ## What a loop feeds -/

/-- From one command and state of the engine to another the blocks `bs` are fed,
each chained from the one before. -/
structure Fed (eng : Engine) (r r' : HashReg) (bs : List Bytes) : Prop where
  sha1 : r'.cmd.sha1 = r.cmd.sha1
  value : r'.value eng = bs.foldl (eng.compress r.cmd.sha1) (r.value eng)
  fed : r'.fed = r.fed ++ feed (eng.compress r.cmd.sha1) (r.value eng) bs
  cont : r'.cmd.cont = (r.cmd.cont || !bs.isEmpty)

theorem Fed.refl (eng : Engine) (r : HashReg) : Fed eng r r [] :=
  { sha1 := rfl
    value := rfl
    fed := (List.append_nil _).symm
    cont := (Bool.or_false _).symm }

theorem Fed.trans {eng : Engine} {r r' r'' : HashReg} {bs cs : List Bytes}
    (h : Fed eng r r' bs) (h' : Fed eng r' r'' cs) : Fed eng r r'' (bs ++ cs) := by
  have hfed := h'.fed
  have hvalue := h'.value
  rw [h.sha1, h.value] at hfed hvalue
  exact {
    sha1 := h'.sha1.trans h.sha1
    value := by rw [hvalue, List.foldl_append]
    fed := by rw [hfed, h.fed, feed_append, List.append_assoc]
    cont := by
      rw [h'.cont, h.cont]
      cases bs with
      | nil => rw [List.isEmpty_nil, Bool.not_true, Bool.or_false, List.nil_append]
      | cons b bs => rw [List.cons_append, List.isEmpty_cons, List.isEmpty_cons,
          Bool.not_false, Bool.or_true, Bool.true_or]
  }

/-- A block and `HASHcontinue` for what follows. -/
theorem fed_compressed (eng : Engine) (r : HashReg) (b : Bytes) :
    Fed eng r (setcmd { r.cmd with cont := true } (compressed eng r b)) [b] := by
  have hlen := eng.compress_length r.cmd.sha1 (r.value eng) b
  exact {
    sha1 := rfl
    value := by
      show (eng.compress r.cmd.sha1 (r.value eng) b ++ _).take (nw r.cmd.sha1) = _
      exact List.take_left' hlen
    fed := rfl
    cont := (Bool.or_true _).symm
  }

/-- `while(n >= 64)` feeds the blocks from its pointer on. -/
theorem blockLoop_fed (eng : Engine) {k : Nat} {cmd : HashCmd} {p : Bytes}
    {r : HashReg} (hp : 64 * k ≤ p.length) :
    Fed eng (setcmd cmd r)
      (setcmd (blockLoop eng k cmd p r).1 (blockLoop eng k cmd p r).2)
      (cut 64 (p.take (64 * k))) := by
  induction k generalizing cmd p r with
  | zero =>
      rw [Nat.mul_zero, List.take_zero, cut_nil]
      exact Fed.refl eng _
  | succ k ih =>
      have hone : words eng 16 p (setcmd cmd r) =
          compressed eng (setcmd cmd r) (p.take 64) :=
        words_block eng (by omega) rfl
      have hdrop : 64 * k ≤ (p.drop 64).length := by
        rw [List.length_drop]
        omega
      have hcut : cut 64 (p.take (64 * (k + 1))) =
          [p.take 64] ++ cut 64 ((p.drop 64).take (64 * k)) := by
        rw [Nat.mul_succ, Nat.add_comm, List.take_add]
        apply cut_cons _ (by decide)
        rw [List.length_take]
        omega
      rw [hcut]
      unfold blockLoop
      rw [hone]
      exact (fed_compressed eng (setcmd cmd r) (p.take 64)).trans (ih hdrop)

/-- The blocks that the loop takes from a buffer. -/
def Buf.blocks (b : Buf) : List Bytes := cut 64 (b.p.take (64 * turns b.n))

private theorem bufLoop_cons (eng : Engine) (b : Buf) (bufs : List Buf)
    (cmd : HashCmd) (r : HashReg) :
    bufLoop eng (b :: bufs) cmd r =
      if b.finish then ((cmd, r), some b)
      else
        bufLoop eng bufs (blockLoop eng (turns b.n) cmd b.p r).1
          (blockLoop eng (turns b.n) cmd b.p r).2 := rfl

/-- The loop over the buffers feeds them one after the other, up to the last. -/
theorem bufLoop_fed (eng : Engine) {bufs last : List Buf} {cmd : HashCmd}
    {r : HashReg} (hbufs : ∀ b ∈ bufs, b.finish = false ∧ 64 * turns b.n ≤ b.p.length)
    (hlast : ∀ b ∈ last, b.finish = true) :
    ∃ cmd' r', bufLoop eng (bufs ++ last) cmd r = ((cmd', r'), last.head?) ∧
      Fed eng (setcmd cmd r) (setcmd cmd' r') (bufs.flatMap Buf.blocks) := by
  induction bufs generalizing cmd r with
  | nil =>
      cases last with
      | nil => exact ⟨cmd, r, rfl, Fed.refl eng _⟩
      | cons b last =>
          have hstop : bufLoop eng (b :: last) cmd r = ((cmd, r), some b) := by
            rw [bufLoop_cons]
            exact if_pos (hlast b List.mem_cons_self)
          exact ⟨cmd, r, hstop, Fed.refl eng _⟩
  | cons b bufs ih =>
      have hb := hbufs b List.mem_cons_self
      have hfed := @blockLoop_fed eng _ cmd _ r hb.2
      obtain ⟨cmd', r', hout, hrest⟩ :=
        @ih (blockLoop eng (turns b.n) cmd b.p r).1
          (blockLoop eng (turns b.n) cmd b.p r).2
          fun b' hb' => hbufs b' (List.mem_cons_of_mem _ hb')
      refine ⟨cmd', r', ?_, hfed.trans hrest⟩
      rw [List.cons_append, bufLoop_cons, hb.1, if_neg Bool.false_ne_true]
      exact hout

/-! ## Padding -/

theorem pad_short {n : Nat} (h : n % 64 + 1 ≤ 56) :
    (119 - n % 64) % 64 = 55 - n % 64 := by
  omega

theorem pad_long {n : Nat} (h : 56 < n % 64 + 1) :
    (119 - n % 64) % 64 = (63 - n % 64) + 56 := by
  omega

theorem pad_length (sha1 : Bool) (m : Bytes) : 64 ∣ (pad sha1 m).length := by
  have hlen : (pad sha1 m).length =
      m.length + (1 + (119 - m.length % 64) % 64) + 8 := by
    unfold pad tail
    rw [List.length_append, List.length_append, List.length_cons,
      List.length_replicate, count_length]
    omega
  omega

private theorem bitcount_block (eng : Engine) (sha1 : Bool) (r : HashReg) (l : Nat) :
    let nb := BitVec.ofNat 64 (8 * l)
    (if sha1 then bitcount eng r (high nb) (low nb)
      else bitcount eng r (swap (low nb)) (swap (high nb))) =
      compressed eng r
        (r.block ++ List.replicate (56 - r.block.length) 0 ++ count sha1 l) := by
  intro nb
  have hcount := count_words sha1 l
  unfold bitcount
  cases sha1 with
  | false =>
      show compressed eng r (_ ++ p32 (swap (low nb)) ++ p32 (swap (high nb))) = _
      rw [← hcount, List.append_assoc]
      rfl
  | true =>
      show compressed eng r (_ ++ p32 (high nb) ++ p32 (low nb)) = _
      rw [← hcount, List.append_assoc]
      rfl

/-- The text, `0x80`, and zeros up to a word. -/
private def marked (p : Bytes) (n : Nat) : Bytes :=
  p.take n ++ 0x80 :: List.replicate (3 - n % 4) 0

private theorem marked_length {p : Bytes} {n : Nat} (hp : n ≤ p.length) :
    (marked p n).length = 4 * (n / 4) + 4 := by
  unfold marked
  rw [List.length_append, List.length_take, List.length_cons, List.length_replicate]
  omega

private theorem marked_zeros (p : Bytes) (n k : Nat) :
    marked p n ++ List.replicate k 0 =
      p.take n ++ 0x80 :: List.replicate (3 - n % 4 + k) 0 := by
  unfold marked
  rw [List.append_assoc, List.cons_append, List.replicate_append_replicate]

/-- Both branches write the rest of the text and `0x80` to the block. -/
private theorem finish_block (eng : Engine) {cmd : HashCmd} {p : Bytes} {n : Nat}
    (r : HashReg) (hn : n < 64) (hp : n ≤ p.length) :
    data eng (words eng (n / 4) p (setcmd cmd r))
        (lastWord (n % 4) 0 0 (p.drop (4 * (n / 4)))) =
      if n < 60 then { setcmd cmd r with block := marked p n }
      else compressed eng (setcmd cmd r) (marked p n) := by
  have hwords : words eng (n / 4) p (setcmd cmd r) =
      { setcmd cmd r with block := p.take (4 * (n / 4)) } :=
    words_short eng (by omega) (by show 0 + _ < 64; omega)
  have hlen : (p.take (4 * (n / 4))).length = 4 * (n / 4) := by
    rw [List.length_take]
    omega
  have hlast := p32_lastWord (p := p.drop (4 * (n / 4))) (Nat.mod_lt n (by decide))
    (by rw [List.length_drop]; omega)
  have hmarked : p.take (4 * (n / 4)) ++
      p32 (lastWord (n % 4) 0 0 (p.drop (4 * (n / 4)))) = marked p n := by
    rw [hlast, ← List.append_assoc, ← List.take_add, Nat.div_add_mod]
    rfl
  rw [hwords]
  by_cases hshort : n < 60
  · rw [if_pos hshort, data_short eng (by show (p.take _).length + 4 < 64; omega)]
    exact congrArg (fun b => { setcmd cmd r with block := b }) hmarked
  · rw [if_neg hshort, data_full eng (by show (p.take _).length + 4 = 64; omega)]
    exact congrArg (compressed eng (setcmd cmd r)) hmarked

/-- Where the count does not fit, zeros complete the block. -/
private theorem finish_long (eng : Engine) {p : Bytes} {n : Nat} (r : HashReg)
    (hn : n < 64) (hlong : 56 < n + 1) (hp : n ≤ p.length) :
    (let r := if n < 60 then { r with block := marked p n }
      else compressed eng r (marked p n)
      if n + 1 ≤ 60 then data eng r 0 else r) =
      compressed eng r (p.take n ++ 0x80 :: List.replicate (63 - n) 0) := by
  have hmarked := marked_length hp
  have hzeros : p32 0 = List.replicate 4 0 := by decide
  by_cases hshort : n < 60
  · have hblock : marked p n ++ p32 0 = p.take n ++ 0x80 :: List.replicate (63 - n) 0 := by
      rw [hzeros, marked_zeros, show 3 - n % 4 + 4 = 63 - n by omega]
    have hfull : (marked p n).length + 4 = 64 := by omega
    simp only [if_pos hshort, if_pos (show n + 1 ≤ 60 by omega)]
    rw [data_full eng hfull, ← hblock]
    rfl
  · have hblock : marked p n = p.take n ++ 0x80 :: List.replicate (63 - n) 0 := by
      unfold marked
      rw [show 3 - n % 4 = 63 - n by omega]
    simp only [if_neg hshort, if_neg (show ¬ n + 1 ≤ 60 by omega)]
    rw [hblock]

/-- `hashfinish` feeds the rest of the text with the padding. -/
theorem hashfinish_fed (eng : Engine) {cmd : HashCmd} {p : Bytes} {n l : Nat}
    (r : HashReg) (hl : l % 64 = n) (hp : n ≤ p.length) :
    Fed eng (setcmd cmd r)
      (setcmd { cmd with cont := true }
        (hashfinish eng cmd p n cmd.sha1 (BitVec.ofNat 64 (8 * l)) r).1)
      (cut 64 (p.take n ++ tail cmd.sha1 l)) := by
  have hn : n < 64 := by omega
  have htake : (p.take n).length = n := by
    rw [List.length_take]
    omega
  have hcount := count_length cmd.sha1 l
  unfold hashfinish
  simp only [finish_block eng r hn hp, bitcount_block]
  by_cases hlong : n + 1 > 56
  · have hfirst : (p.take n ++ 0x80 :: List.replicate (63 - n) 0 : Bytes).length = 64 := by
      rw [List.length_append, htake, List.length_cons, List.length_replicate]
      omega
    have hsecond : (List.replicate 56 0 ++ count cmd.sha1 l).length = 64 := by
      rw [List.length_append, List.length_replicate, hcount]
    have htail : p.take n ++ tail cmd.sha1 l =
        (p.take n ++ 0x80 :: List.replicate (63 - n) 0) ++
          (List.replicate 56 0 ++ count cmd.sha1 l) := by
      unfold tail
      rw [pad_long (by omega), hl, ← List.replicate_append_replicate]
      simp only [List.append_assoc, List.cons_append]
    rw [if_pos hlong, finish_long eng (setcmd cmd r) hn hlong hp, htail,
      cut_cons _ (by decide) hfirst, cut_single (by decide) hsecond]
    exact (fed_compressed eng (setcmd cmd r) _).trans (fed_compressed eng _ _)
  · have hmarked := marked_length hp
    have hblock : marked p n ++ List.replicate (56 - (marked p n).length) 0 =
        p.take n ++ 0x80 :: List.replicate (55 - n) 0 := by
      rw [marked_zeros, hmarked,
        show 3 - n % 4 + (56 - (4 * (n / 4) + 4)) = 55 - n by omega]
    have htail : p.take n ++ tail cmd.sha1 l =
        p.take n ++ 0x80 :: List.replicate (55 - n) 0 ++ count cmd.sha1 l := by
      unfold tail
      rw [pad_short (by omega), hl, ← List.append_assoc]
    have hlen : (p.take n ++ 0x80 :: List.replicate (55 - n) 0 ++
        count cmd.sha1 l).length = 64 := by
      rw [List.length_append, List.length_append, htake, List.length_cons,
        List.length_replicate, hcount]
      omega
    rw [if_neg hlong, if_pos (by omega), htail, cut_single (by decide) hlen]
    show Fed eng _ (setcmd _ (compressed eng { setcmd cmd r with block := marked p n }
      (marked p n ++ List.replicate (56 - (marked p n).length) 0 ++ count cmd.sha1 l))) _
    rw [hblock]
    exact fed_compressed eng (setcmd cmd r) _

/-! ## One call -/

/-- The value that a state stands for. -/
def DigestState.value (eng : Engine) (s : DigestState) (sha1 : Bool) : List Word :=
  if s.seeded then s.state else eng.init sha1

/-- The engine as `hashexec` sets it up. -/
private def started (s : DigestState) (sha1 : Bool) (r : HashReg) : HashReg :=
  setcmd { sha1 := sha1, cont := s.seeded }
    (if s.seeded then { r with iv := s.state ++ r.iv.drop (nw sha1) } else r)

private theorem started_fed (s : DigestState) (sha1 : Bool) (r : HashReg) :
    (started s sha1 r).fed = r.fed := by
  unfold started setcmd
  by_cases h : s.seeded = true
  · rw [if_pos h]
  · rw [if_neg h]

private theorem started_value (eng : Engine) {s : DigestState} {sha1 : Bool}
    (r : HashReg) (hs : (s.value eng sha1).length = nw sha1) :
    (started s sha1 r).value eng = s.value eng sha1 := by
  unfold started setcmd HashReg.value DigestState.value at *
  by_cases h : s.seeded = true
  · simp only [h, if_true] at *
    exact List.take_left' hs
  · simp only [h, if_false, Bool.false_eq_true]

theorem foldl_length (eng : Engine) {sha1 : Bool} {v : List Word} (bs : List Bytes)
    (hv : v.length = nw sha1) : (bs.foldl (eng.compress sha1) v).length = nw sha1 := by
  induction bs generalizing v with
  | nil => exact hv
  | cons b bs ih => exact ih (eng.compress_length sha1 v b)

/-- Without a digest: what is fed, and the state that is kept. -/
theorem hashexec_fed (eng : Engine) {bufs : List Buf} {s : DigestState} {sha1 : Bool}
    {r : HashReg} (hbufs : ∀ b ∈ bufs, b.finish = false ∧ 64 * turns b.n ≤ b.p.length) :
    ∃ r' state, Fed eng (started s sha1 r) r' (bufs.flatMap Buf.blocks) ∧
      (hashexec eng bufs s sha1 r).1 = { s with seeded := true, state := state } ∧
      (hashexec eng bufs s sha1 r).2.1.fed = r'.fed ∧
      (r'.cmd.cont = true → state = r'.value eng) := by
  obtain ⟨cmd', r', hloop, hfed⟩ := @bufLoop_fed eng bufs []
    { sha1 := sha1, cont := s.seeded }
    (if s.seeded then { r with iv := s.state ++ r.iv.drop (nw sha1) } else r) hbufs
    (fun b hb => absurd hb List.not_mem_nil)
  have hsha1 : cmd'.sha1 = sha1 := hfed.sha1
  refine ⟨setcmd cmd' r', r'.iv.take (nw sha1), hfed, ?_, ?_, ?_⟩
  · unfold hashexec
    rw [List.append_nil] at hloop
    simp only [hloop, List.head?_nil]
  · unfold hashexec
    rw [List.append_nil] at hloop
    simp only [hloop, List.head?_nil]
    rfl
  · intro hcont
    have hcont' : cmd'.cont = true := hcont
    unfold HashReg.value setcmd
    simp only [hcont', hsha1, if_true]

/-- With a digest, which is that of the last value. -/
theorem hashexec_finish (eng : Engine) {bufs : List Buf} {b : Buf} {s : DigestState}
    {sha1 : Bool} {r : HashReg} {l : Nat}
    (hbufs : ∀ b ∈ bufs, b.finish = false ∧ 64 * turns b.n ≤ b.p.length)
    (hb : b.finish = true) (hlen : s.len = BitVec.ofNat 64 l) (hl : l % 64 = b.n)
    (hp : b.n ≤ b.p.length) :
    ∃ r', Fed eng (started s sha1 r) r'
        (bufs.flatMap Buf.blocks ++ cut 64 (b.p.take b.n ++ tail sha1 l)) ∧
      (hashexec eng (bufs ++ [b]) s sha1 r).2.1.fed = r'.fed ∧
      (hashexec eng (bufs ++ [b]) s sha1 r).2.2 = some (output sha1 (r'.value eng)) := by
  obtain ⟨cmd', r', hloop, hfed⟩ := @bufLoop_fed eng bufs [b]
    { sha1 := sha1, cont := s.seeded }
    (if s.seeded then { r with iv := s.state ++ r.iv.drop (nw sha1) } else r) hbufs
    (fun b' hb' => by rw [List.mem_singleton.1 hb']; exact hb)
  have hsha1 : cmd'.sha1 = sha1 := hfed.sha1
  have hbits : s.len * 8 = BitVec.ofNat 64 (8 * l) := by
    rw [hlen, Nat.mul_comm, BitVec.ofNat_mul]
    rfl
  have hfinish := @hashfinish_fed eng cmd' b.p b.n l r' hl hp
  rw [hsha1] at hfinish
  refine ⟨_, hfed.trans hfinish, ?_, ?_⟩
  · unfold hashexec
    simp only [hloop, List.head?_cons, hbits]
    rfl
  · unfold hashexec
    simp only [hloop, List.head?_cons, hbits]
    unfold HashReg.value setcmd
    simp only [if_true]
    rfl

/-! ## What a call takes -/

/-- The bytes of `p` that reach the engine or the buffer. -/
def seen (o : Nat) (p : Bytes) : Bytes :=
  let q := p.drop (filled o p)
  p.take (filled o p) ++
    (q.take (64 * turns (q.length - q.length % 64)) ++ q.take (q.length % 64))

/-- Whether the loop takes all of `n` bytes depends on the sign of an `int`. -/
theorem turns_eq {n : Nat} (hn : n < 2 ^ 32) (hdvd : 64 ∣ n) :
    turns n = if n < 2 ^ 31 then n / 64 else 0 := by
  unfold turns
  by_cases h : n < 2 ^ 31
  · rw [if_pos h, long_eq (by omega) (by omega)]
    omega
  · have hneg : long n < 0 := by
      unfold long
      omega
    rw [if_neg h]
    omega

theorem whole_dvd (n : Nat) : 64 ∣ n - n % 64 := Nat.dvd_sub_mod n

theorem turns_le {n : Nat} (hn : n < 2 ^ 32) : 64 * turns (n - n % 64) ≤ n - n % 64 := by
  rw [turns_eq (by omega) (whole_dvd n)]
  by_cases h : n - n % 64 < 2 ^ 31
  · rw [if_pos h]
    exact Nat.mul_div_le _ _
  · rw [if_neg h]
    exact Nat.zero_le _

private theorem rest_lt {o : Nat} {p : Bytes} (hp : p.length < 2 ^ 32) :
    (p.drop (filled o p)).length < 2 ^ 32 := by
  rw [List.length_drop]
  omega

private theorem seen_parts {o : Nat} {p : Bytes} (hp : p.length < 2 ^ 32) :
    (seen o p).length = (p.take (filled o p)).length +
      (64 * turns ((p.drop (filled o p)).length - (p.drop (filled o p)).length % 64) +
        (p.drop (filled o p)).length % 64) := by
  have hle := turns_le (rest_lt (o := o) hp)
  have hmod := Nat.mod_le (p.drop (filled o p)).length 64
  unfold seen
  simp only [List.length_append]
  rw [List.length_take (l := List.drop _ _), List.length_take (l := List.drop _ _),
    Nat.min_eq_left (by omega), Nat.min_eq_left hmod]

/-- A call takes at most its text. -/
theorem seen_length_le {o : Nat} {p : Bytes} (hp : p.length < 2 ^ 32) :
    (seen o p).length ≤ p.length := by
  have hsplit := congrArg List.length (List.take_append_drop (filled o p) p)
  have hle := turns_le (rest_lt (o := o) hp)
  have hmod := Nat.mod_le (p.drop (filled o p)).length 64
  rw [List.length_append] at hsplit
  rw [seen_parts hp]
  omega

/-- A block more or less does not change where the next one starts. -/
theorem seen_length_mod {o : Nat} {p : Bytes} (hp : p.length < 2 ^ 32) :
    (seen o p).length % 64 = p.length % 64 := by
  have hsplit := congrArg List.length (List.take_append_drop (filled o p) p)
  rw [List.length_append] at hsplit
  rw [seen_parts hp]
  omega

/-- A call takes its text as it is exactly when it is right. -/
theorem seen_eq_iff {o : Nat} {p : Bytes} (hp : p.length < 2 ^ 32) :
    seen o p = p ↔ Right o p := by
  have hlen := seen_parts (o := o) hp
  have hlt := rest_lt (o := o) hp
  have hsplit := List.take_append_drop (filled o p) p
  unfold Right
  generalize hq : p.drop (filled o p) = q at *
  have hturns := turns_eq (n := q.length - q.length % 64) (by omega) (whole_dvd _)
  have hcancel : seen o p = p ↔
      q.take (64 * turns (q.length - q.length % 64)) ++ q.take (q.length % 64) = q := by
    conv_lhs => rhs; rw [← hsplit]
    unfold seen
    rw [hq]
    exact List.append_right_inj _
  rw [hcancel]
  show _ ↔ q.length - q.length % 64 < 2 ^ 31 ∧ _
  by_cases hsmall : q.length - q.length % 64 < 2 ^ 31
  · have hall : 64 * turns (q.length - q.length % 64) = q.length - q.length % 64 := by
      rw [hturns, if_pos hsmall]
      exact Nat.mul_div_cancel' (whole_dvd _)
    rw [hall]
    constructor
    · intro h
      refine ⟨hsmall, ?_⟩
      have hwhole := List.take_append_drop (q.length - q.length % 64) q
      exact List.append_cancel_left (hwhole.trans h.symm)
    · intro h
      rw [← h.2]
      exact List.take_append_drop _ q
  · constructor
    · intro h
      have hcount := congrArg List.length h
      rw [hturns, if_neg hsmall, List.length_append, List.length_take,
        List.length_take] at hcount
      omega
    · intro h
      exact absurd h.1 hsmall

/-- What `hash` hands to the engine before the last buffer, and what it keeps:
`q` is what it still has after filling up the buffer. -/
structure Parts (s s' : DigestState) (o : Nat) (p q : Bytes) (bufs : List Buf)
    (u : Bytes) : Prop where
  state : s' = { s with buf := s'.buf }
  text : s.buf ++ seen o p = u ++ (s'.buf ++ q.take (q.length % 64))
  dvd : 64 ∣ u.length
  small : s'.buf.length < 64
  alone : s'.buf = [] ∨ q = []
  loops : ∀ b ∈ bufs, b.finish = false ∧ 64 * turns b.n ≤ b.p.length
  sizes : ∀ b ∈ bufs, 64 ≤ b.n
  blocks : bufs.flatMap Buf.blocks = cut 64 u
  turns : Right o p → ∀ b ∈ bufs, 0 < turns b.n

private theorem turns_block : turns 64 = 1 := by
  rw [turns_eq (by decide) (by decide)]
  rfl

private theorem turns_zero : turns 0 = 0 := by
  rw [turns_eq (by decide) (by decide)]
  rfl

private theorem whole_spec {q : Bytes} (hq : q.length < 2 ^ 32) :
    (∀ b ∈ whole q, b.finish = false ∧ 64 * turns b.n ≤ b.p.length) ∧
      (whole q).flatMap Buf.blocks =
        cut 64 (q.take (64 * turns (q.length - q.length % 64))) := by
  unfold whole
  by_cases h : 64 ≤ q.length
  · rw [if_pos h]
    constructor
    · intro b hb
      rw [List.mem_singleton.1 hb]
      exact ⟨rfl, (turns_le hq).trans (Nat.sub_le _ _)⟩
    · exact List.append_nil _
  · have hnone : q.length - q.length % 64 = 0 := by omega
    rw [if_neg h, hnone, turns_zero, Nat.mul_zero, List.take_zero, cut_nil]
    exact ⟨fun b hb => absurd hb List.not_mem_nil, rfl⟩

private theorem whole_sizes {q : Bytes} {b : Buf} (hb : b ∈ whole q) : 64 ≤ b.n := by
  unfold whole at hb
  by_cases h : 64 ≤ q.length
  · rw [if_pos h] at hb
    rw [List.mem_singleton.1 hb]
    show 64 ≤ q.length - q.length % 64
    omega
  · rw [if_neg h] at hb
    cases hb

private theorem whole_turns {o : Nat} {p : Bytes} (hright : Right o p) :
    ∀ b ∈ whole (p.drop (filled o p)), 0 < turns b.n := by
  intro b hb
  unfold whole at hb
  by_cases h : 64 ≤ (p.drop (filled o p)).length
  · rw [if_pos h] at hb
    have hsmall := hright.1
    rw [List.mem_singleton.1 hb]
    show 0 < turns _
    rw [turns_eq (by omega) (whole_dvd _), if_pos hsmall]
    omega
  · rw [if_neg h] at hb
    cases hb

/-- Filling up the buffer makes a block or uses up the text. -/
private theorem fill_spec {s : DigestState} {o : Nat} {p : Bytes}
    (hs : s.buf.length = o % 64) :
    ∃ full buf w, fill s p = ({ s with buf := buf }, p.drop (filled o p), full) ∧
      w ++ buf = s.buf ++ p.take (filled o p) ∧ 64 ∣ w.length ∧ buf.length < 64 ∧
      (buf = [] ∨ p.drop (filled o p) = []) ∧
      (∀ b ∈ full, b.finish = false ∧ b.n = 64 ∧ b.p.length = 64) ∧
      full.flatMap Buf.blocks = cut 64 w := by
  unfold fill filled
  rw [← hs]
  by_cases hempty : 0 < s.buf.length
  · rw [if_pos hempty, if_pos hempty]
    generalize hn : min (64 - s.buf.length) p.length = n
    have hlen : (s.buf ++ p.take n).length = s.buf.length + n := by
      rw [List.length_append, List.length_take]
      omega
    by_cases hfull : (s.buf ++ p.take n).length = 64
    · have hblocks : [({ p := s.buf ++ p.take n, n := 64, finish := false } : Buf)].flatMap
          Buf.blocks = cut 64 (s.buf ++ p.take n) := by
        show cut 64 ((s.buf ++ p.take n).take (64 * turns 64)) ++ [] = _
        rw [List.append_nil, turns_block, List.take_of_length_le (by omega)]
      refine ⟨_, [], s.buf ++ p.take n, ?_, List.append_nil _, ?_, by decide,
        Or.inl rfl, ?_, hblocks⟩
      · simp only [if_pos hfull]
      · rw [hfull]
      · intro b hb
        rw [List.mem_singleton.1 hb]
        exact ⟨rfl, rfl, hfull⟩
    · refine ⟨[], s.buf ++ p.take n, [], ?_, List.nil_append _, Nat.dvd_zero _,
        by omega, Or.inr ?_, fun b hb => absurd hb List.not_mem_nil, (cut_nil 64).symm⟩
      · simp only [if_neg hfull]
      · apply List.drop_eq_nil_of_le
        omega
  · have hnil : s.buf = [] := List.eq_nil_of_length_eq_zero (by omega)
    rw [if_neg hempty, if_neg hempty]
    exact ⟨[], s.buf, [], rfl, by rw [List.take_zero, List.append_nil, List.nil_append],
      Nat.dvd_zero _, by rw [hnil]; decide, Or.inl hnil,
      fun b hb => absurd hb List.not_mem_nil,
      (cut_nil 64).symm⟩

theorem hash_parts {s : DigestState} {o : Nat} {p : Bytes} (hp : p.length < 2 ^ 32)
    (hs : s.buf.length = o % 64) :
    ∃ s' full u, fill s p = (s', p.drop (filled o p), full) ∧
      Parts s s' o p (p.drop (filled o p)) (full ++ whole (p.drop (filled o p))) u := by
  obtain ⟨full, buf, w, hfill, htext, hdvd, hsmall, halone, hfull, hblocks⟩ :=
    fill_spec (p := p) hs
  have hq : (p.drop (filled o p)).length < 2 ^ 32 := by
    rw [List.length_drop]
    omega
  have hwhole := whole_spec hq
  have hlen : ((p.drop (filled o p)).take (64 * turns ((p.drop (filled o p)).length -
      (p.drop (filled o p)).length % 64))).length =
      64 * turns ((p.drop (filled o p)).length - (p.drop (filled o p)).length % 64) := by
    have hle := turns_le hq
    rw [List.length_take, Nat.min_eq_left (by omega)]
  refine ⟨{ s with buf := buf }, full, w ++ (p.drop (filled o p)).take (64 * turns
    ((p.drop (filled o p)).length - (p.drop (filled o p)).length % 64)), hfill, ?_⟩
  exact {
    state := rfl
    text := by
      show s.buf ++ seen o p = _ ++ (buf ++ _)
      unfold seen
      rw [← List.append_assoc, ← htext]
      cases halone with
      | inl h => simp only [h, List.append_nil, List.nil_append, List.append_assoc]
      | inr h => simp only [h, List.take_nil, List.append_nil]
    dvd := by
      rw [List.length_append, hlen]
      exact Nat.dvd_add hdvd (Nat.dvd_mul_right _ _)
    small := hsmall
    alone := halone
    loops := by
      intro b hb
      cases List.mem_append.1 hb with
      | inl h =>
          obtain ⟨hfin, hn, hbp⟩ := hfull b h
          exact ⟨hfin, by rw [hn, hbp, turns_block]⟩
      | inr h => exact hwhole.1 b h
    sizes := by
      intro b hb
      cases List.mem_append.1 hb with
      | inl h => exact ge_of_eq (hfull b h).2.1
      | inr h => exact whole_sizes h
    blocks := by
      rw [List.flatMap_append, hblocks, hwhole.2, cut_append _ _ (by decide) hdvd]
    turns := by
      intro hright b hb
      cases List.mem_append.1 hb with
      | inl h => rw [(hfull b h).2.1, turns_block]; decide
      | inr h => exact whole_turns hright b h
  }

private theorem Parts.left {s s' : DigestState} {o : Nat} {p q : Bytes}
    {bufs : List Buf} {u : Bytes} (h : Parts s s' o p q bufs u) :
    (s'.buf ++ q.take (q.length % 64)).length < 64 := by
  have hsmall := h.small
  rw [List.length_append, List.length_take]
  cases h.alone with
  | inl hbuf => rw [hbuf, List.length_nil]; omega
  | inr hq => rw [hq, List.length_nil]; omega

private theorem Parts.cut {s s' : DigestState} {o : Nat} {p q : Bytes}
    {bufs : List Buf} {u : Bytes} (h : Parts s s' o p q bufs u) :
    cut 64 (s.buf ++ seen o p) = bufs.flatMap Buf.blocks ∧
      rest 64 (s.buf ++ seen o p) = s'.buf ++ q.take (q.length % 64) := by
  rw [h.text, cut_append _ _ (by decide) h.dvd, cut_short h.left, List.append_nil,
    rest_append_blocks _ _ (by decide) h.dvd, rest_short h.left]
  exact ⟨h.blocks.symm, rfl⟩

private theorem nblocks_pos {bufs : List Buf} (h : ∀ b ∈ bufs, 64 ≤ b.n)
    (hne : bufs ≠ []) : 0 < nblocks bufs := by
  match bufs, hne with
  | b :: bufs, _ =>
      have hb := h b List.mem_cons_self
      unfold nblocks
      rw [List.map_cons, List.sum_cons]
      cases b.finish with
      | true => exact Nat.add_pos_left Nat.one_pos _
      | false => exact Nat.add_pos_left (Nat.div_pos hb (by decide)) _

private theorem blocks_ne_nil {bufs : List Buf}
    (hloops : ∀ b ∈ bufs, b.finish = false ∧ 64 * turns b.n ≤ b.p.length)
    (hturns : ∀ b ∈ bufs, 0 < turns b.n) (hne : bufs ≠ []) :
    (bufs.flatMap Buf.blocks).isEmpty = false := by
  match bufs, hne with
  | b :: bufs, _ =>
      have hlen : b.blocks.length = turns b.n := by
        unfold Buf.blocks
        rw [cut_length, List.length_take,
          Nat.min_eq_left (hloops b List.mem_cons_self).2]
        exact Nat.mul_div_cancel_left _ (by decide)
      have hpos := hturns b List.mem_cons_self
      rw [List.flatMap_cons]
      cases hb : b.blocks with
      | nil => rw [hb, List.length_nil] at hlen; omega
      | cons c cs => rfl

/-- `if(nblocks > 0)`, without a digest. -/
private theorem exec_fed (eng : Engine) {s : DigestState} {sha1 : Bool} {r : HashReg}
    {bufs : List Buf}
    (hloops : ∀ b ∈ bufs, b.finish = false ∧ 64 * turns b.n ≤ b.p.length)
    (hsizes : ∀ b ∈ bufs, 64 ≤ b.n) :
    let out := if 0 < nblocks bufs then hashexec eng bufs s sha1 r else (s, r, none)
    let bs := bufs.flatMap Buf.blocks
    out.1.len = s.len ∧ out.1.buf = s.buf ∧
      ∃ v, out.2.1.fed = r.fed ++ feed (eng.compress sha1) v bs ∧
        ((s.value eng sha1).length = nw sha1 → (∀ b ∈ bufs, 0 < turns b.n) →
          v = s.value eng sha1 ∧
            out.1.value eng sha1 = bs.foldl (eng.compress sha1) v) := by
  by_cases hne : bufs = []
  · rw [hne]
    exact ⟨rfl, rfl, s.value eng sha1, (List.append_nil _).symm,
      fun _ _ => ⟨rfl, rfl⟩⟩
  · obtain ⟨r', state, hfed, hs, hr, hstate⟩ :=
      @hashexec_fed eng bufs s sha1 r hloops
    have hlog := hfed.fed
    have hvalue := hfed.value
    have hcont := hfed.cont
    rw [started_fed] at hlog
    rw [if_pos (nblocks_pos hsizes hne)]
    dsimp only
    rw [hs, hr]
    refine ⟨rfl, rfl, (started s sha1 r).value eng, hlog, ?_⟩
    intro hlength hturns
    rw [blocks_ne_nil hloops hturns hne, Bool.not_false, Bool.or_true] at hcont
    refine ⟨started_value eng r hlength, ?_⟩
    show (if true = true then state else _) = _
    rw [if_pos rfl, hstate hcont]
    exact hvalue

private theorem hash_eq (eng : Engine) {s s' : DigestState} {p q : Bytes}
    {full : List Buf} (digest sha1 : Bool) (r : HashReg)
    (hfill : fill { s with len := s.len + BitVec.ofNat 64 p.length } p = (s', q, full)) :
    hash eng p digest s sha1 r =
      let bufs := full ++ whole q ++ final s' q digest
      let out := if 0 < nblocks bufs then hashexec eng bufs s' sha1 r else (s', r, none)
      (if ¬ digest ∧ 0 < q.length % 64 then
        { out.1 with buf := q.take (q.length % 64) } else out.1, out.2) := by
  unfold hash
  simp only [hfill]

/-- A call without a digest: what it feeds and what it keeps. -/
theorem hash_fed (eng : Engine) {s : DigestState} {o : Nat} {p : Bytes} {sha1 : Bool}
    (r : HashReg) (hp : p.length < 2 ^ 32) (hs : s.buf.length = o % 64) :
    let out := hash eng p false s sha1 r
    let bs := cut 64 (s.buf ++ seen o p)
    out.1.len = s.len + BitVec.ofNat 64 p.length ∧
      out.1.buf = rest 64 (s.buf ++ seen o p) ∧
      ∃ v, out.2.1.fed = r.fed ++ feed (eng.compress sha1) v bs ∧
        ((s.value eng sha1).length = nw sha1 → Right o p →
          v = s.value eng sha1 ∧
            out.1.value eng sha1 = bs.foldl (eng.compress sha1) v) := by
  obtain ⟨s', full, u, hfill, hparts⟩ := @hash_parts
    { s with len := s.len + BitVec.ofNat 64 p.length } o p hp hs
  have hcut := hparts.cut
  have halone := hparts.alone
  have hturns := hparts.turns
  have hstate := hparts.state
  obtain ⟨hlen, hbuf, v, hlog, hvalue⟩ :=
    @exec_fed eng s' sha1 r _ hparts.loops hparts.sizes
  rw [hash_eq eng false sha1 r hfill]
  generalize p.drop (filled o p) = q at *
  simp only [final, if_false, Bool.false_eq_true, List.append_nil, not_false_eq_true,
    true_and] at hlen hbuf hlog hvalue ⊢
  rw [hcut.1, hcut.2]
  have hvalue' : s'.value eng sha1 = s.value eng sha1 := by rw [hstate]; rfl
  rw [hvalue'] at hvalue
  refine ⟨?_, ?_, v, hlog, ?_⟩
  · by_cases ht : 0 < q.length % 64
    · rw [if_pos ht]
      exact hlen.trans (by rw [hstate])
    · rw [if_neg ht]
      exact hlen.trans (by rw [hstate])
  · by_cases ht : 0 < q.length % 64
    · rw [if_pos ht]
      cases halone with
      | inl h => rw [h, List.nil_append]
      | inr h => rw [h] at ht; exact absurd ht (by decide)
    · have hzero : q.length % 64 = 0 := by omega
      rw [if_neg ht, hzero, List.take_zero, List.append_nil]
      exact hbuf
  · intro hlength hright
    obtain ⟨hv, hfold⟩ := hvalue hlength (hturns hright)
    refine ⟨hv, ?_⟩
    rw [← hfold]
    by_cases ht : 0 < q.length % 64
    · rw [if_pos ht]
      rfl
    · rw [if_neg ht]

/-- The last buffer has what the call keeps otherwise. -/
private theorem final_spec {s : DigestState} {q : Bytes}
    (hsmall : s.buf.length < 64) (halone : s.buf = [] ∨ q = []) :
    ∃ b : Buf, final s q true = [b] ∧ b.finish = true ∧ b.n ≤ b.p.length ∧
      b.n < 64 ∧ b.p.take b.n = s.buf ++ q.take (q.length % 64) := by
  have hmod := Nat.mod_lt q.length (show 64 > 0 by decide)
  by_cases ht : 0 < q.length % 64
  · have hbuf : s.buf = [] := by
      cases halone with
      | inl h => exact h
      | inr h => rw [h] at ht; exact absurd ht (by decide)
    refine ⟨{ p := q, n := q.length % 64, finish := true }, ?_, rfl, Nat.mod_le _ _,
      hmod, ?_⟩
    · unfold final
      rw [if_pos rfl, if_pos ht]
    · rw [hbuf, List.nil_append]
  · have hzero : q.length % 64 = 0 := by omega
    refine ⟨{ p := s.buf, n := s.buf.length, finish := true }, ?_, rfl, le_refl _,
      hsmall, ?_⟩
    · unfold final
      rw [if_pos rfl, if_neg ht]
    · rw [hzero, List.take_zero, List.append_nil, List.take_length]

private theorem nblocks_finish (bufs : List Buf) {b : Buf} (hb : b.finish = true) :
    0 < nblocks (bufs ++ [b]) := by
  unfold nblocks
  rw [List.map_append, List.sum_append, List.map_cons, hb]
  exact Nat.add_pos_right _ Nat.one_pos

/-- The call with a digest: what it feeds, and the digest. -/
theorem hash_finish (eng : Engine) {s : DigestState} {o l : Nat} {p : Bytes}
    {sha1 : Bool} (r : HashReg) (hp : p.length < 2 ^ 32) (hs : s.buf.length = o % 64)
    (hlen : s.len + BitVec.ofNat 64 p.length = BitVec.ofNat 64 l)
    (hl : l % 64 = (s.buf ++ seen o p).length % 64) :
    let out := hash eng p true s sha1 r
    let bs := cut 64 (s.buf ++ seen o p ++ tail sha1 l)
    ∃ v, out.2.1.fed = r.fed ++ feed (eng.compress sha1) v bs ∧
      out.2.2 = some (output sha1 (bs.foldl (eng.compress sha1) v)) ∧
      ((s.value eng sha1).length = nw sha1 → v = s.value eng sha1) := by
  obtain ⟨s', full, u, hfill, hparts⟩ := @hash_parts
    { s with len := s.len + BitVec.ofNat 64 p.length } o p hp hs
  have hleft := hparts.left
  have htext := hparts.text
  have hstate := hparts.state
  have hdvd := hparts.dvd
  have hblocks := hparts.blocks
  have hloops := hparts.loops
  obtain ⟨b, hfinal, hfinish, hn, hsmall, htake⟩ :=
    final_spec hparts.small hparts.alone
  rw [hash_eq eng true sha1 r hfill]
  generalize p.drop (filled o p) = q at *
  have hbn : b.n = (s'.buf ++ q.take (q.length % 64)).length := by
    rw [← htake, List.length_take, Nat.min_eq_left hn]
  have hmod : l % 64 = b.n := by
    rw [hl, show s.buf ++ seen o p = _ from htext, List.length_append, ← hbn,
      Nat.add_mod, Nat.mod_eq_zero_of_dvd hdvd, Nat.zero_add, Nat.mod_mod]
    exact Nat.mod_eq_of_lt hsmall
  have hslen : s'.len = BitVec.ofNat 64 l := by rw [hstate]; exact hlen
  obtain ⟨r', hfed, hlog, hout⟩ :=
    @hashexec_finish eng _ _ _ sha1 r _ hloops hfinish hslen hmod hn
  have hcut : cut 64 (s.buf ++ seen o p ++ tail sha1 l) =
      (full ++ whole q).flatMap Buf.blocks ++ cut 64 (b.p.take b.n ++ tail sha1 l) := by
    rw [show s.buf ++ seen o p = _ from htext, List.append_assoc,
      cut_append _ _ (by decide) hdvd, hblocks, htake]
  have hvalue' : s'.value eng sha1 = s.value eng sha1 := by rw [hstate]; rfl
  simp only [hfinal, if_pos (nblocks_finish (full ++ whole q) hfinish)]
  refine ⟨(started s' sha1 r).value eng, ?_, ?_, ?_⟩
  · rw [hlog, hfed.fed, started_fed, hcut]
    rfl
  · rw [hout, hfed.value, hcut]
    rfl
  · intro hlength
    rw [← hvalue'] at hlength ⊢
    exact started_value eng r hlength

/-! ## All the calls -/

/-- The bytes that the calls take in all. -/
def seenAll : Nat → List Call → Bytes
  | _, [] => []
  | o, c :: cs => seen o c.p ++ seenAll (o + c.p.length) cs

/-- After the calls so far: `m` are the bytes they took, and `n` those they had. -/
structure Taken (n : Nat) (m : Bytes) (s : DigestState)
    (fed : List (List Word × Bytes)) : Prop where
  len : s.len = BitVec.ofNat 64 n
  mod : n % 64 = m.length % 64
  buf : s.buf = rest 64 m
  blocks : fed.map Prod.snd = cut 64 m

/-- The blocks are chained from the start. -/
structure Chained (eng : Engine) (sha1 : Bool) (m : Bytes) (s : DigestState)
    (fed : List (List Word × Bytes)) : Prop where
  fed : fed = feed (eng.compress sha1) (eng.init sha1) (cut 64 m)
  value : s.value eng sha1 = (cut 64 m).foldl (eng.compress sha1) (eng.init sha1)

theorem taken_new : Taken 0 [] DigestState.new [] :=
  { len := rfl
    mod := rfl
    buf := (rest_nil 64).symm
    blocks := (cut_nil 64).symm }

theorem chained_new (eng : Engine) (sha1 : Bool) :
    Chained eng sha1 [] DigestState.new [] := by
  constructor
  · rw [cut_nil]
    rfl
  · rw [cut_nil]
    rfl

theorem Chained.length {eng : Engine} {sha1 : Bool} {m : Bytes} {s : DigestState}
    {fed : List (List Word × Bytes)} (h : Chained eng sha1 m s fed) :
    (s.value eng sha1).length = nw sha1 := by
  rw [h.value]
  exact foldl_length eng _ (eng.init_length sha1)

theorem Taken.buf_length {n : Nat} {m : Bytes} {s : DigestState}
    {fed : List (List Word × Bytes)} (h : Taken n m s fed) :
    s.buf.length = n % 64 := by
  rw [h.buf, rest_length, h.mod]

/-- What one call makes of it. -/
theorem hash_taken (eng : Engine) (sha1 : Bool) {n : Nat} {m : Bytes}
    {s : DigestState} {fed : List (List Word × Bytes)} (c : Call)
    (h : Taken n m s fed) :
    let out := hash eng c.p false s sha1 (c.reg fed)
    Taken (n + c.p.length) (m ++ seen n c.p) out.1 out.2.1.fed ∧
      (Chained eng sha1 m s fed → Right n c.p →
        Chained eng sha1 (m ++ seen n c.p) out.1 out.2.1.fed) := by
  obtain ⟨hlen, hbuf, v, hfed, hvalue⟩ :=
    @hash_fed eng s n c.p sha1 (c.reg fed) c.fits h.buf_length
  have hcut := cut_append_rest m (seen n c.p) (show 0 < 64 by decide)
  rw [h.buf, ← rest_append m _ (by decide)] at hbuf
  rw [h.buf] at hfed hvalue
  constructor
  · exact {
      len := by rw [hlen, h.len, BitVec.ofNat_add]
      mod := by
        rw [List.length_append, Nat.add_mod, h.mod, ← seen_length_mod c.fits,
          ← Nat.add_mod]
      buf := hbuf
      blocks := by
        rw [hfed, List.map_append, feed_blocks, hcut]
        exact congrArg (· ++ _) h.blocks
    }
  · intro hchained hright
    obtain ⟨hv, hfold⟩ := hvalue hchained.length hright
    rw [hchained.value] at hv
    rw [hv] at hfed hfold
    exact {
      fed := by
        rw [hfed, hcut, feed_append]
        exact congrArg (· ++ _) hchained.fed
      value := by rw [hfold, hcut, List.foldl_append]
    }

theorem calls_taken (eng : Engine) (sha1 : Bool) {n : Nat} {m : Bytes}
    {s : DigestState} {fed : List (List Word × Bytes)} (cs : List Call)
    (h : Taken n m s fed) :
    let out := calls eng sha1 cs s fed
    Taken (n + (text cs).length) (m ++ seenAll n cs) out.1 out.2 ∧
      (Chained eng sha1 m s fed → AllRight n cs →
        Chained eng sha1 (m ++ seenAll n cs) out.1 out.2) := by
  induction cs generalizing n m s fed with
  | nil =>
      rw [seenAll, List.append_nil]
      exact ⟨h, fun hc _ => hc⟩
  | cons c cs ih =>
      obtain ⟨htaken, hchained⟩ := hash_taken eng sha1 c h
      obtain ⟨htaken', hchained'⟩ := ih htaken
      have hlen : n + (text (c :: cs)).length =
          n + c.p.length + (text cs).length := by
        show n + (c.p ++ text cs).length = _
        rw [List.length_append, Nat.add_assoc]
      rw [seenAll, ← List.append_assoc, hlen]
      exact ⟨htaken', fun hc hright => hchained' (hchained hc hright.1) hright.2⟩

theorem seenAll_append (n : Nat) (cs ds : List Call) :
    seenAll n (cs ++ ds) = seenAll n cs ++ seenAll (n + (text cs).length) ds := by
  induction cs generalizing n with
  | nil => rfl
  | cons c cs ih =>
      have hlen : n + c.p.length + (text cs).length = n + (text (c :: cs)).length := by
        show _ = n + (c.p ++ text cs).length
        rw [List.length_append, Nat.add_assoc]
      rw [List.cons_append, seenAll, ih, seenAll, List.append_assoc, hlen]

theorem seenAll_length_le (n : Nat) (cs : List Call) :
    (seenAll n cs).length ≤ (text cs).length := by
  induction cs generalizing n with
  | nil => exact le_refl _
  | cons c cs ih =>
      have hone : (seen n c.p).length ≤ c.p.length := seen_length_le c.fits
      have hrest := ih (n + c.p.length)
      show (seen n c.p ++ seenAll _ cs).length ≤ (c.p ++ text cs).length
      rw [List.length_append, List.length_append]
      omega

/-- The calls take the text as it is exactly when each of them is right. -/
theorem seenAll_eq_iff (n : Nat) (cs : List Call) :
    seenAll n cs = text cs ↔ AllRight n cs := by
  induction cs generalizing n with
  | nil => exact ⟨fun _ => trivial, fun _ => rfl⟩
  | cons c cs ih =>
      have hone : (seen n c.p).length ≤ c.p.length := seen_length_le c.fits
      have hrest := seenAll_length_le (n + c.p.length) cs
      have hright := @seen_eq_iff n c.p c.fits
      show seen n c.p ++ seenAll _ cs = c.p ++ text cs ↔ _
      constructor
      · intro h
        have hlen := congrArg List.length h
        rw [List.length_append, List.length_append] at hlen
        obtain ⟨hc, hcs⟩ := List.append_inj h (by omega)
        exact ⟨hright.1 hc, (ih _).1 hcs⟩
      · intro h
        rw [hright.2 h.1, (ih _).2 h.2]

private theorem text_append (cs : List Call) (c : Call) :
    text (cs ++ [c]) = text cs ++ c.p := by
  unfold text
  rw [List.map_append, List.flatten_append]
  exact congrArg (_ ++ ·) (List.append_nil _)

/-- All that is fed: the bytes that were taken, with the padding for those that
there were. -/
theorem digest_fed (eng : Engine) (sha1 : Bool) (cs : List Call) (last : Call) :
    let m := text (cs ++ [last])
    let blocks := cut 64 (seenAll 0 (cs ++ [last]) ++ tail sha1 m.length)
    let out := digest eng sha1 cs last
    out.1.map Prod.snd = blocks ∧
      (AllRight 0 cs →
        out.1 = feed (eng.compress sha1) (eng.init sha1) blocks ∧
          out.2 = some
            (output sha1 (blocks.foldl (eng.compress sha1) (eng.init sha1)))) := by
  obtain ⟨htaken, hchained⟩ := calls_taken eng sha1 cs taken_new
  rw [Nat.zero_add, List.nil_append] at htaken
  have hseen : seenAll 0 (cs ++ [last]) =
      seenAll 0 cs ++ seen (text cs).length last.p := by
    rw [seenAll_append, Nat.zero_add, seenAll, seenAll, List.append_nil]
  have hlength : (text (cs ++ [last])).length = (text cs).length + last.p.length := by
    rw [text_append, List.length_append]
  have hlen : (calls eng sha1 cs DigestState.new []).1.len +
      BitVec.ofNat 64 last.p.length =
      BitVec.ofNat 64 (text (cs ++ [last])).length := by
    rw [htaken.len, hlength, BitVec.ofNat_add]
  have hmod : (text (cs ++ [last])).length % 64 =
      ((calls eng sha1 cs DigestState.new []).1.buf ++
        seen (text cs).length last.p).length % 64 := by
    rw [hlength, List.length_append, htaken.buf_length, Nat.mod_add_mod,
      Nat.add_mod, ← seen_length_mod (o := (text cs).length) last.fits, ← Nat.add_mod]
  obtain ⟨v, hfed, hout, hv⟩ := @hash_finish eng _ _ _ last.p sha1
    (last.reg (calls eng sha1 cs DigestState.new []).2) last.fits
    htaken.buf_length hlen hmod
  have hcut := cut_append_rest (seenAll 0 cs)
    (seen (text cs).length last.p ++ tail sha1 (text (cs ++ [last])).length)
    (show 0 < 64 by decide)
  rw [htaken.buf, List.append_assoc] at hfed hout
  rw [hseen]
  show (hash eng last.p true _ sha1 (last.reg _)).2.1.fed.map _ = _ ∧ _
  rw [List.append_assoc, hcut]
  constructor
  · rw [hfed, List.map_append, feed_blocks]
    exact congrArg (· ++ _) htaken.blocks
  · intro hright
    have hch := hchained (chained_new eng sha1) hright
    rw [List.nil_append] at hch
    have hvalue := hv hch.length
    rw [hch.value] at hvalue
    rw [hvalue] at hfed hout
    constructor
    · show (hash eng last.p true _ sha1 (last.reg _)).2.1.fed = _
      rw [hfed, feed_append]
      exact congrArg (· ++ _) hch.fed
    · show (hash eng last.p true _ sha1 (last.reg _)).2.2 = _
      rw [hout, List.foldl_append]

theorem seenAll_length_mod (n : Nat) (cs : List Call) :
    (seenAll n cs).length % 64 = (text cs).length % 64 := by
  induction cs generalizing n with
  | nil => rfl
  | cons c cs ih =>
      have hone : (seen n c.p).length % 64 = c.p.length % 64 := seen_length_mod c.fits
      show (seen n c.p ++ seenAll _ cs).length % 64 = (c.p ++ text cs).length % 64
      rw [List.length_append, List.length_append, Nat.add_mod, hone, ih, ← Nat.add_mod]

theorem AllRight.front {n : Nat} {cs ds : List Call} (h : AllRight n (cs ++ ds)) :
    AllRight n cs := by
  induction cs generalizing n with
  | nil => trivial
  | cons c cs ih => exact ⟨h.1, ih h.2⟩

theorem digest_of_right (eng : Engine) (sha1 : Bool) (cs : List Call) (last : Call)
    (h : AllRight 0 (cs ++ [last])) :
    Standard eng sha1 (text (cs ++ [last])) (digest eng sha1 cs last) := by
  have hfed := (digest_fed eng sha1 cs last).2 h.front
  rw [(seenAll_eq_iff 0 _).2 h] at hfed
  exact hfed

/-- Where no call goes wrong, the digest is that of the text, however it is cut. -/
theorem digest_congr (eng : Engine) (sha1 : Bool) {cs ds : List Call} {c d : Call}
    (hc : AllRight 0 (cs ++ [c])) (hd : AllRight 0 (ds ++ [d]))
    (htext : text (cs ++ [c]) = text (ds ++ [d])) :
    digest eng sha1 cs c = digest eng sha1 ds d := by
  have hcs := digest_of_right eng sha1 cs c hc
  have hds := digest_of_right eng sha1 ds d hd
  rw [htext] at hcs
  exact Prod.ext (hcs.1.trans hds.1.symm) (hcs.2.trans hds.2.symm)

/-- The engine is fed the standard padding of the whole text, and gives its
digest, exactly when every call is right. -/
theorem digest_standard_iff (eng : Engine) (sha1 : Bool) (cs : List Call)
    (last : Call) :
    Standard eng sha1 (text (cs ++ [last])) (digest eng sha1 cs last) ↔
      AllRight 0 (cs ++ [last]) := by
  constructor
  · intro h
    have hmod := seenAll_length_mod 0 (cs ++ [last])
    have hpad := pad_length sha1 (text (cs ++ [last]))
    have hblocks := congrArg (List.map Prod.snd) h.1
    rw [(digest_fed eng sha1 cs last).1, feed_blocks] at hblocks
    have hdvd : 64 ∣ (seenAll 0 (cs ++ [last]) ++
        tail sha1 (text (cs ++ [last])).length).length := by
      unfold pad at hpad
      rw [List.length_append] at hpad ⊢
      omega
    have htext := cut_inj (by decide) hdvd hpad hblocks
    exact (seenAll_eq_iff 0 _).1 (List.append_cancel_right htext)
  · exact digest_of_right eng sha1 cs last

/-- An engine that keeps nothing of a block. -/
def idle : Engine where
  init := fun sha1 => List.replicate (nw sha1) 0
  compress := fun sha1 _ _ => List.replicate (nw sha1) 0
  init_length := fun _ => List.length_replicate
  compress_length := fun _ _ _ => List.length_replicate

/-- A block of zeros and a byte that is not zero. -/
def blockAndByte : Call where
  p := List.replicate 64 0 ++ [1]
  fits := by decide
  cmd := { sha1 := false, cont := false }
  block := []
  iv := []

/-- The last byte is taken from the start of the text. -/
theorem digest_repeats_start :
    ¬ Standard idle true (text [blockAndByte]) (digest idle true [] blockAndByte) := by
  intro h
  have hblocks := congrArg (List.map Prod.snd) h.1
  revert hblocks
  decide +kernel

end Kirkwood.Ports.CesaHash
