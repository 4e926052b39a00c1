import Mathlib.Algebra.Order.Ring.Nat
import Mathlib.Data.List.Basic
import Kirkwood.Verified.Cbc
import Kirkwood.Verified.Outcome
import Kirkwood.Ports.CesaWords

/-!
# AES on the security engine

`aes` of `cesa.c` encrypts or decrypts a buffer in place with the engine, and
for chaining keeps the last ciphertext block in `ivec` of its state, from one
call to the next.  The engine is a parameter: a cipher on blocks of four words
and its inverse, for each key.

## Main results

* `encrypt_blocks`, `decrypt_blocks`: what the loops make of the buffer;
* `calls_inverse_iff`: for every way of cutting the text, decryption gives back
  the plaintext with the right `ivec` after every call exactly when each
  decryption call leaves in its other buffer what it should have kept.

The loop of the decryption swaps two buffers, so that on its exit the last
ciphertext block is in `a`; both directions store `b`.
-/

namespace Kirkwood.Ports.AesCbc

open Kirkwood.Verified.ByteMem
open Kirkwood.Verified.Outcome
open Kirkwood.Verified
open Kirkwood.Ports.CesaWords

/-! ## The code -/

/-- The data registers, in the order of the text: `data[3]` comes first. -/
structure Block where
  data3 : Word
  data2 : Word
  data1 : Word
  data0 : Word
  deriving DecidableEq, Repr

/-- `^` on each word. -/
def Block.xor (x y : Block) : Block :=
  { data3 := x.data3 ^^^ y.data3
    data2 := x.data2 ^^^ y.data2
    data1 := x.data1 ^^^ y.data1
    data0 := x.data0 ^^^ y.data0 }

/-- The encryption and the decryption engine, under the key length of the
command register and the words of the key registers from `key[7]` down. -/
structure Engine where
  enc : Nat → List Word → Block → Block
  dec : Nat → List Word → Block → Block
  dec_enc : ∀ cmd key b, dec cmd key (enc cmd key b) = b

/-- `AESstate`. -/
structure AESstate where
  keybytes : Nat
  key : Mem
  ivec : Mem

/-- `setupAESstate`; the key and the initial block are at the start of theirs. -/
def setupAESstate (key : Mem) (keybytes : Nat) (ivec : Mem) : AESstate :=
  { keybytes := keybytes
    key := overlay (fun _ => 0) 0 (slice key 0 keybytes)
    ivec := overlay (fun _ => 0) 0 (slice ivec 0 16) }

/-- `g32(p)` -/
def load32 (m : Mem) (p : Int) : Word := g32 (m p) (m (p + 1)) (m (p + 2)) (m (p + 3))

/-- `g32(p+0)`, `g32(p+4)`, `g32(p+8)`, `g32(p+12)` -/
def load (m : Mem) (p : Int) : Block :=
  { data3 := load32 m p
    data2 := load32 m (p + 4)
    data1 := load32 m (p + 8)
    data0 := load32 m (p + 12) }

def Block.bytes (b : Block) : Bytes :=
  p32 b.data3 ++ p32 b.data2 ++ p32 b.data1 ++ p32 b.data0

/-- `p32(p+0, ..)`, `p32(p+4, ..)`, `p32(p+8, ..)`, `p32(p+12, ..)` -/
def store (m : Mem) (p : Int) (b : Block) : Mem := overlay m p b.bytes

/-- `while(p < e)` of the chained encryption, with `v`; `k` turns are left. -/
def encryptLoop (enc : Block → Block) : Nat → Mem → Int → Block → Mem × Block
  | 0, m, _, v => (m, v)
  | k + 1, m, p, v =>
      let c := enc ((load m p).xor v)
      encryptLoop enc k (store m p c) (p + 16) c

/-- `while(p < e)` of the chained decryption, with the buffers `a` and `b`; the
result is `b`. -/
def decryptLoop (dec : Block → Block) :
    Nat → Mem → Int → Block → Block → Mem × Block
  | 0, m, _, _, b => (m, b)
  | k + 1, m, p, a, _ =>
      let b := load m p
      decryptLoop dec k (store m p (a.xor (dec b))) (p + 16) b a

/-- `while(p < e)` without chaining. -/
def ecbLoop (f : Block → Block) : Nat → Mem → Int → Mem
  | 0, m, _ => m
  | k + 1, m, p => ecbLoop f k (store m p (f (load m p))) (p + 16)

/-- The words of the key, as they are put in `key[7]`, `key[6]` and so on. -/
def keyWords (s : AESstate) : List Word :=
  (List.range (s.keybytes / 4)).map fun i : Nat => load32 s.key (4 * i)

/-- The key length in the command register. -/
def keyCmd (keybytes : Nat) : Except Exn Nat :=
  if keybytes = 16 then .ok 0
  else if keybytes = 24 then .ok 1
  else if keybytes = 32 then .ok 2
  else .error (.error s!"bad aes keylength {keybytes}")

/-- `aes`; `w` is what the variable of that name has on the stack, and the loops
take a turn for every 16 bytes that start before the end. -/
def aes (eng : Engine) (w : Block) (m : Mem) (p : Int) (n : Nat) (s : AESstate)
    (enc cbc : Bool) : Except Exn (Mem × AESstate) := do
  let cmd ← keyCmd s.keybytes
  let turns := (n + 15) / 16
  if cbc then
    let v := load s.ivec 0
    let (m, b) :=
      if enc then encryptLoop (eng.enc cmd (keyWords s)) turns m p v
      else decryptLoop (eng.dec cmd (keyWords s)) turns m p v w
    pure (m, { s with ivec := store s.ivec 0 b })
  else
    let f := if enc then eng.enc cmd (keyWords s) else eng.dec cmd (keyWords s)
    pure (ecbLoop f turns m p, s)

def aesCBCencrypt (eng : Engine) (w : Block) (m : Mem) (p : Int) (n : Nat)
    (s : AESstate) : Except Exn (Mem × AESstate) :=
  aes eng w m p n s true true

def aesCBCdecrypt (eng : Engine) (w : Block) (m : Mem) (p : Int) (n : Nat)
    (s : AESstate) : Except Exn (Mem × AESstate) :=
  aes eng w m p n s false true

/-- Calls on successive pieces of a text, each of some blocks and with what it
finds on the stack, and the state after each of them. -/
def calls (f : Block → Mem → Int → Nat → AESstate → Except Exn (Mem × AESstate)) :
    Mem → Int → AESstate → List (Nat × Block) →
      Except Exn (Mem × List AESstate)
  | m, _, _, [] => pure (m, [])
  | m, p, s, (k, w) :: cuts => do
      let (m, s) ← f w m p (16 * k) s
      let (m, states) ← calls f m (p + 16 * k) s cuts
      pure (m, s :: states)

/-! ## Blocks in memory -/

/-- The `k` blocks from `p` on. -/
def blocksAt (m : Mem) (p : Int) (k : Nat) : List Block :=
  (List.range k).map fun i : Nat => load m (p + 16 * i)

theorem Block.xor_xor (a b : Block) : b.xor (a.xor b) = a := by
  have hword : ∀ x y : Word, y ^^^ (x ^^^ y) = x := by
    intro x y
    rw [BitVec.xor_comm x y, ← BitVec.xor_assoc, BitVec.xor_self, BitVec.zero_xor]
  cases a
  unfold Block.xor
  simp only [hword]

@[simp] theorem blocksAt_length (m : Mem) (p : Int) (k : Nat) :
    (blocksAt m p k).length = k := by
  simp [blocksAt]

theorem blocksAt_succ (m : Mem) (p : Int) (k : Nat) :
    blocksAt m p (k + 1) = load m p :: blocksAt m (p + 16) k := by
  have hzero : p + 16 * ((0 : Nat) : Int) = p := by omega
  have hsucc : ∀ i : Nat, p + 16 * ((i + 1 : Nat) : Int) = p + 16 + 16 * i := by
    intro i
    omega
  unfold blocksAt
  rw [List.range_succ_eq_map, List.map_cons, List.map_map, hzero]
  apply congrArg (List.cons _)
  apply List.map_congr_left
  intro i _
  exact congrArg (load m) (hsucc i)

theorem blocksAt_add (m : Mem) (p : Int) (k l : Nat) :
    blocksAt m p (k + l) = blocksAt m p k ++ blocksAt m (p + 16 * k) l := by
  induction k generalizing p with
  | zero =>
      have hzero : p + 16 * ((0 : Nat) : Int) = p := by omega
      rw [Nat.zero_add, hzero]
      rfl
  | succ k ih =>
      have hsucc : p + 16 * ((k + 1 : Nat) : Int) = p + 16 + 16 * (k : Int) := by
        omega
      rw [show k + 1 + l = (k + l) + 1 by omega, blocksAt_succ, ih, blocksAt_succ,
        List.cons_append, hsucc]

theorem blocksAt_take (m : Mem) (p : Int) (k l : Nat) :
    (blocksAt m p (k + l)).take k = blocksAt m p k := by
  rw [blocksAt_add, List.take_left' (blocksAt_length _ _ _)]

theorem blocksAt_drop (m : Mem) (p : Int) (k l : Nat) :
    (blocksAt m p (k + l)).drop k = blocksAt m (p + 16 * k) l := by
  rw [blocksAt_add, List.drop_left' (blocksAt_length _ _ _)]

theorem load_congr {m m' : Mem} {p : Int}
    (h : ∀ x, p ≤ x → x < p + 16 → m x = m' x) : load m p = load m' p := by
  have hword : ∀ q, p ≤ q → q + 3 < p + 16 → load32 m q = load32 m' q := by
    intro q hlo hhi
    unfold load32
    rw [h q hlo (by omega), h (q + 1) (by omega) (by omega),
      h (q + 2) (by omega) (by omega), h (q + 3) (by omega) (by omega)]
  unfold load
  rw [hword p (by omega) (by omega), hword (p + 4) (by omega) (by omega),
    hword (p + 8) (by omega) (by omega), hword (p + 12) (by omega) (by omega)]

theorem blocksAt_congr {m m' : Mem} {p : Int} {k : Nat}
    (h : ∀ x, p ≤ x → x < p + 16 * k → m x = m' x) :
    blocksAt m p k = blocksAt m' p k := by
  apply List.map_congr_left
  intro i hi
  have hlt := List.mem_range.1 hi
  apply load_congr
  intro x hlo hhi
  exact h x (by omega) (by omega)

/-- Blocks behind those that a loop has changed. -/
theorem blocksAt_behind {m m' : Mem} {p : Int} {k : Nat} (l : Nat)
    (h : ∀ x, x < p ∨ p + 16 * k ≤ x → m' x = m x) :
    blocksAt m' (p + 16 * k) l = blocksAt m (p + 16 * k) l := by
  apply blocksAt_congr
  intro x hlo _
  exact h x (.inr hlo)

theorem store_outside (m : Mem) (p : Int) (b : Block) {x : Int}
    (hx : x < p ∨ p + 16 ≤ x) : store m p b x = m x :=
  overlay_outside m p b.bytes hx

theorem store_inside (m : Mem) (p : Int) (b : Block) {i : Nat} (hi : i < 16) :
    store m p b (p + i) = b.bytes.get ⟨i, hi⟩ :=
  overlay_inside m p b.bytes i hi

theorem load_store (m : Mem) (p : Int) (b : Block) : load (store m p b) p = b := by
  have hat : ∀ (i : Nat) (hi : i < 16) (q : Int), q = p + i →
      store m p b q = b.bytes.get ⟨i, hi⟩ := by
    intro i hi q hq
    rw [hq]
    exact store_inside m p b hi
  unfold load load32
  rw [hat 0 (by decide) p (by omega), hat 1 (by decide) (p + 1) (by omega),
    hat 2 (by decide) (p + 2) (by omega), hat 3 (by decide) (p + 3) (by omega),
    hat 4 (by decide) (p + 4) (by omega), hat 5 (by decide) (p + 4 + 1) (by omega),
    hat 6 (by decide) (p + 4 + 2) (by omega), hat 7 (by decide) (p + 4 + 3) (by omega),
    hat 8 (by decide) (p + 8) (by omega), hat 9 (by decide) (p + 8 + 1) (by omega),
    hat 10 (by decide) (p + 8 + 2) (by omega),
    hat 11 (by decide) (p + 8 + 3) (by omega), hat 12 (by decide) (p + 12) (by omega),
    hat 13 (by decide) (p + 12 + 1) (by omega),
    hat 14 (by decide) (p + 12 + 2) (by omega),
    hat 15 (by decide) (p + 12 + 3) (by omega)]
  cases b
  simp only [Block.mk.injEq]
  exact ⟨g32_p32 _, g32_p32 _, g32_p32 _, g32_p32 _⟩

private theorem load32_inj {m m' : Mem} {q : Int}
    (h : load32 m q = load32 m' q) :
    m q = m' q ∧ m (q + 1) = m' (q + 1) ∧ m (q + 2) = m' (q + 2) ∧
      m (q + 3) = m' (q + 3) := by
  have hbytes := congrArg p32 h
  unfold load32 at hbytes
  rw [p32_g32, p32_g32] at hbytes
  simpa using hbytes

/-- The bytes of a block are what is read from it. -/
theorem load_inj {m m' : Mem} {p : Int} (h : load m p = load m' p) :
    ∀ x, p ≤ x → x < p + 16 → m x = m' x := by
  unfold load at h
  simp only [Block.mk.injEq] at h
  obtain ⟨a0, a1, a2, a3⟩ := load32_inj h.1
  obtain ⟨b0, b1, b2, b3⟩ := load32_inj h.2.1
  obtain ⟨c0, c1, c2, c3⟩ := load32_inj h.2.2.1
  obtain ⟨d0, d1, d2, d3⟩ := load32_inj h.2.2.2
  intro x hlo hhi
  have hx : x = p ∨ x = p + 1 ∨ x = p + 2 ∨ x = p + 3 ∨ x = p + 4 ∨
      x = p + 4 + 1 ∨ x = p + 4 + 2 ∨ x = p + 4 + 3 ∨ x = p + 8 ∨
      x = p + 8 + 1 ∨ x = p + 8 + 2 ∨ x = p + 8 + 3 ∨ x = p + 12 ∨
      x = p + 12 + 1 ∨ x = p + 12 + 2 ∨ x = p + 12 + 3 := by omega
  rcases hx with rfl | rfl | rfl | rfl | rfl | rfl | rfl | rfl | rfl | rfl |
    rfl | rfl | rfl | rfl | rfl | rfl <;> assumption

/-- A memory is what it holds in the blocks of a range and outside. -/
theorem mem_eq {m m' : Mem} {p : Int} {k : Nat}
    (hin : blocksAt m p k = blocksAt m' p k)
    (hout : ∀ x, x < p ∨ p + 16 * k ≤ x → m x = m' x) : m = m' := by
  funext x
  by_cases hx : x < p ∨ p + 16 * k ≤ x
  · exact hout x hx
  · have hi : ((x - p) / 16).toNat < k := by omega
    have hat : load m (p + 16 * ((x - p) / 16).toNat) =
        load m' (p + 16 * ((x - p) / 16).toNat) := by
      unfold blocksAt at hin
      exact List.map_inj_left.1 hin _ (List.mem_range.2 hi)
    exact load_inj hat x (by omega) (by omega)

/-! ## The loops -/

/-- The encryption loop chains, and leaves the last ciphertext block in `v`. -/
theorem encrypt_blocks (enc : Block → Block) (k : Nat) (m : Mem) (p : Int)
    (v : Block) :
    blocksAt (encryptLoop enc k m p v).1 p k =
        Cbc.encrypt Block.xor enc v (blocksAt m p k) ∧
      (encryptLoop enc k m p v).2 =
        Cbc.last v (Cbc.encrypt Block.xor enc v (blocksAt m p k)) ∧
      ∀ x, x < p ∨ p + 16 * k ≤ x → (encryptLoop enc k m p v).1 x = m x := by
  induction k generalizing m p v with
  | zero => exact ⟨rfl, rfl, fun _ _ => rfl⟩
  | succ k ih =>
      have hrest : blocksAt (store m p (enc ((load m p).xor v))) (p + 16) k =
          blocksAt m (p + 16) k := by
        apply blocksAt_congr
        intro x hlo _
        exact store_outside m p _ (.inr hlo)
      obtain ⟨hblocks, hlast, hframe⟩ :=
        ih (store m p (enc ((load m p).xor v))) (p + 16) (enc ((load m p).xor v))
      rw [hrest] at hblocks hlast
      have hhead : load (encryptLoop enc (k + 1) m p v).1 p =
          enc ((load m p).xor v) := by
        rw [← load_store m p (enc ((load m p).xor v))]
        apply load_congr
        intro x _ hhi
        exact hframe x (.inl hhi)
      refine ⟨?_, ?_, ?_⟩
      · rw [blocksAt_succ, blocksAt_succ, hhead]
        exact congrArg (List.cons _) hblocks
      · rw [blocksAt_succ]
        show _ = Cbc.last v (enc ((load m p).xor v) :: _)
        rw [Cbc.last_cons]
        exact hlast
      · intro x hx
        have hstored : store m p (enc ((load m p).xor v)) x = m x :=
          store_outside m p _ (by omega)
        rw [← hstored]
        exact hframe x (by omega)

/-- What the decryption loop leaves in `b`: the block before the last one, which
is in `a`. -/
def left (a b : Block) (cs : List Block) : Block :=
  Cbc.last b (a :: cs).dropLast

theorem left_cons (a b c : Block) (cs : List Block) :
    left a b (c :: cs) = left c a cs := by
  unfold left
  rw [List.dropLast_cons_of_ne_nil (List.cons_ne_nil _ _), Cbc.last_cons]

theorem decrypt_blocks (dec : Block → Block) (k : Nat) (m : Mem) (p : Int)
    (a b : Block) :
    blocksAt (decryptLoop dec k m p a b).1 p k =
        Cbc.decrypt Block.xor dec a (blocksAt m p k) ∧
      (decryptLoop dec k m p a b).2 = left a b (blocksAt m p k) ∧
      ∀ x, x < p ∨ p + 16 * k ≤ x → (decryptLoop dec k m p a b).1 x = m x := by
  induction k generalizing m p a b with
  | zero => exact ⟨rfl, rfl, fun _ _ => rfl⟩
  | succ k ih =>
      have hrest : blocksAt (store m p (a.xor (dec (load m p)))) (p + 16) k =
          blocksAt m (p + 16) k := by
        apply blocksAt_congr
        intro x hlo _
        exact store_outside m p _ (.inr hlo)
      obtain ⟨hblocks, hleft, hframe⟩ :=
        ih (store m p (a.xor (dec (load m p)))) (p + 16) (load m p) a
      rw [hrest] at hblocks hleft
      have hhead : load (decryptLoop dec (k + 1) m p a b).1 p =
          a.xor (dec (load m p)) := by
        rw [← load_store m p (a.xor (dec (load m p)))]
        apply load_congr
        intro x _ hhi
        exact hframe x (.inl hhi)
      refine ⟨?_, ?_, ?_⟩
      · rw [blocksAt_succ, blocksAt_succ, hhead]
        exact congrArg (List.cons _) hblocks
      · rw [blocksAt_succ, left_cons]
        exact hleft
      · intro x hx
        have hstored : store m p (a.xor (dec (load m p))) x = m x :=
          store_outside m p _ (by omega)
        rw [← hstored]
        exact hframe x (by omega)

/-! ## The calls -/

/-- The number of blocks of a cutting. -/
def total (cuts : List (Nat × Block)) : Nat := (cuts.map Prod.fst).sum

/-- After each call of a cutting of `cs`, `ivec` is the last ciphertext block so
far, `v` if there is none. -/
def IvecsRight : Block → List Block → List (Nat × Block) → List AESstate → Prop
  | _, _, [], [] => True
  | v, cs, (k, _) :: cuts, s :: states =>
      load s.ivec 0 = Cbc.last v (cs.take k) ∧
        IvecsRight (Cbc.last v (cs.take k)) (cs.drop k) cuts states
  | _, _, _, _ => False

/-- In each call of a cutting of the ciphertext `cs`, the block before the last
one equals it.  Before the first block of a call comes the last one of the call
before; in a call for nothing the stack has to hold that block. -/
def Settled : Block → List Block → List (Nat × Block) → Prop
  | _, _, [] => True
  | v, cs, (k, w) :: cuts =>
      left v w (cs.take k) = Cbc.last v (cs.take k) ∧
        Settled (Cbc.last v (cs.take k)) (cs.drop k) cuts

/-- The text from `p` on, encrypted under the state's key and `ivec`. -/
def ciphertext (eng : Engine) (s : AESstate) (m : Mem) (p : Int) (k : Nat) :
    List Block :=
  match keyCmd s.keybytes with
  | .ok cmd => Cbc.encrypt Block.xor (eng.enc cmd (keyWords s)) (load s.ivec 0)
      (blocksAt m p k)
  | .error _ => []

theorem keyCmd_ok {keybytes : Nat}
    (h : keybytes = 16 ∨ keybytes = 24 ∨ keybytes = 32) :
    ∃ cmd, keyCmd keybytes = .ok cmd := by
  rcases h with rfl | rfl | rfl
  · exact ⟨0, rfl⟩
  · exact ⟨1, rfl⟩
  · exact ⟨2, rfl⟩

/-- The memory after a loop, and the state with the block that the loop left. -/
def keep (s : AESstate) (r : Mem × Block) : Mem × AESstate :=
  (r.1, { s with ivec := store s.ivec 0 r.2 })

theorem turns_eq (k : Nat) : (16 * k + 15) / 16 = k := by omega

theorem aesCBCencrypt_eq (eng : Engine) (w : Block) (m : Mem) (p : Int) (k : Nat)
    {s : AESstate} {cmd : Nat} (hcmd : keyCmd s.keybytes = .ok cmd) :
    aesCBCencrypt eng w m p (16 * k) s = .ok (keep s
      (encryptLoop (eng.enc cmd (keyWords s)) k m p (load s.ivec 0))) := by
  unfold aesCBCencrypt aes
  rw [hcmd, turns_eq]
  rfl

theorem aesCBCdecrypt_eq (eng : Engine) (w : Block) (m : Mem) (p : Int) (k : Nat)
    {s : AESstate} {cmd : Nat} (hcmd : keyCmd s.keybytes = .ok cmd) :
    aesCBCdecrypt eng w m p (16 * k) s = .ok (keep s
      (decryptLoop (eng.dec cmd (keyWords s)) k m p (load s.ivec 0) w)) := by
  unfold aesCBCdecrypt aes
  rw [hcmd, turns_eq]
  rfl

theorem calls_cons
    {f : Block → Mem → Int → Nat → AESstate → Except Exn (Mem × AESstate)}
    {m m₁ m₂ : Mem} {p : Int} {s s₁ : AESstate} {k : Nat} {w : Block}
    {cuts : List (Nat × Block)} {states : List AESstate}
    (hcall : f w m p (16 * k) s = .ok (m₁, s₁))
    (hrest : calls f m₁ (p + 16 * k) s₁ cuts = .ok (m₂, states)) :
    calls f m p s ((k, w) :: cuts) = .ok (m₂, s₁ :: states) := by
  simp only [calls, hcall, ok_bind, hrest]
  rfl

/-- What successive encryption calls do. -/
theorem calls_encrypt (eng : Engine) {cmd : Nat} (cuts : List (Nat × Block))
    (m : Mem) (p : Int) (s : AESstate) (hcmd : keyCmd s.keybytes = .ok cmd) :
    ∃ m' states, calls (aesCBCencrypt eng) m p s cuts = .ok (m', states) ∧
      blocksAt m' p (total cuts) = Cbc.encrypt Block.xor (eng.enc cmd (keyWords s))
        (load s.ivec 0) (blocksAt m p (total cuts)) ∧
      (∀ x, x < p ∨ p + 16 * total cuts ≤ x → m' x = m x) ∧
      IvecsRight (load s.ivec 0) (blocksAt m' p (total cuts)) cuts states := by
  induction cuts generalizing m p s with
  | nil => exact ⟨m, [], rfl, rfl, fun _ _ => rfl, trivial⟩
  | cons cut cuts ih =>
      obtain ⟨k, w⟩ := cut
      obtain ⟨hblocks, hlast, hframe⟩ :=
        encrypt_blocks (eng.enc cmd (keyWords s)) k m p (load s.ivec 0)
      have hcall := aesCBCencrypt_eq eng w m p k hcmd
      revert hblocks hlast hframe hcall
      generalize encryptLoop (eng.enc cmd (keyWords s)) k m p (load s.ivec 0) = r
      intro hblocks hlast hframe hcall
      obtain ⟨m', states, hrest, hblocks', hframe', hright⟩ :=
        ih r.1 (p + 16 * k) { s with ivec := store s.ivec 0 r.2 } hcmd
      have htotal : total ((k, w) :: cuts) = k + total cuts := rfl
      have hkey : keyWords { s with ivec := store s.ivec 0 r.2 } = keyWords s := rfl
      have hivec : load (store s.ivec 0 r.2) 0 = r.2 := load_store _ _ _
      rw [hkey] at hblocks'
      rw [hivec] at hblocks' hright
      have hfirst : blocksAt m' p k = blocksAt r.1 p k := by
        apply blocksAt_congr
        intro x _ hhi
        exact hframe' x (.inl hhi)
      have hsecond : blocksAt r.1 (p + 16 * k) (total cuts) =
          blocksAt m (p + 16 * k) (total cuts) := blocksAt_behind _ hframe
      have hkept : r.2 = Cbc.last (load s.ivec 0) (blocksAt m' p k) := by
        rw [hfirst, hblocks]
        exact hlast
      refine ⟨m', _, calls_cons hcall hrest, ?_, ?_, ?_⟩
      · rw [htotal, blocksAt_add, blocksAt_add, Cbc.encrypt_append, hfirst, hblocks,
          hblocks', hsecond, hlast]
      · intro x hx
        rw [htotal] at hx
        rw [hframe' x (by omega)]
        exact hframe x (by omega)
      · rw [htotal]
        show load (store s.ivec 0 r.2) 0 = _ ∧ _
        rw [blocksAt_take, blocksAt_drop, hivec, ← hkept]
        exact ⟨rfl, hright⟩

/-- What successive decryption calls do. -/
theorem calls_decrypt (eng : Engine) {cmd : Nat} (cuts : List (Nat × Block))
    (m : Mem) (p : Int) (s : AESstate) (hcmd : keyCmd s.keybytes = .ok cmd) :
    ∃ m' states, calls (aesCBCdecrypt eng) m p s cuts = .ok (m', states) ∧
      (∀ x, x < p ∨ p + 16 * total cuts ≤ x → m' x = m x) ∧
      (IvecsRight (load s.ivec 0) (blocksAt m p (total cuts)) cuts states ↔
        Settled (load s.ivec 0) (blocksAt m p (total cuts)) cuts) ∧
      (Settled (load s.ivec 0) (blocksAt m p (total cuts)) cuts →
        blocksAt m' p (total cuts) = Cbc.decrypt Block.xor
          (eng.dec cmd (keyWords s)) (load s.ivec 0)
          (blocksAt m p (total cuts))) := by
  induction cuts generalizing m p s with
  | nil => exact ⟨m, [], rfl, fun _ _ => rfl, Iff.rfl, fun _ => rfl⟩
  | cons cut cuts ih =>
      obtain ⟨k, w⟩ := cut
      obtain ⟨hblocks, hleft, hframe⟩ :=
        decrypt_blocks (eng.dec cmd (keyWords s)) k m p (load s.ivec 0) w
      have hcall := aesCBCdecrypt_eq eng w m p k hcmd
      revert hblocks hleft hframe hcall
      generalize decryptLoop (eng.dec cmd (keyWords s)) k m p (load s.ivec 0) w = r
      intro hblocks hleft hframe hcall
      obtain ⟨m', states, hrest, hframe', hiff, hsettled⟩ :=
        ih r.1 (p + 16 * k) { s with ivec := store s.ivec 0 r.2 } hcmd
      have htotal : total ((k, w) :: cuts) = k + total cuts := rfl
      have hkey : keyWords { s with ivec := store s.ivec 0 r.2 } = keyWords s := rfl
      have hivec : load (store s.ivec 0 r.2) 0 = r.2 := load_store _ _ _
      have hsecond : blocksAt r.1 (p + 16 * k) (total cuts) =
          blocksAt m (p + 16 * k) (total cuts) := blocksAt_behind _ hframe
      rw [hkey] at hsettled
      rw [hivec, hsecond] at hiff hsettled
      refine ⟨m', _, calls_cons hcall hrest, ?_, ?_, ?_⟩
      · intro x hx
        rw [htotal] at hx
        rw [hframe' x (by omega)]
        exact hframe x (by omega)
      · rw [htotal]
        show (load (store s.ivec 0 r.2) 0 = _ ∧ _) ↔ _ ∧ _
        rw [blocksAt_take, blocksAt_drop, hivec, ← hleft]
        constructor
        · intro ⟨hhead, htail⟩
          rw [← hhead] at htail
          exact ⟨hhead, by rw [← hhead]; exact hiff.1 htail⟩
        · intro ⟨hhead, htail⟩
          rw [← hhead] at htail
          exact ⟨hhead, by rw [← hhead]; exact hiff.2 htail⟩
      · rw [htotal]
        intro ⟨hhead, htail⟩
        rw [blocksAt_take, ← hleft] at hhead
        rw [blocksAt_take, blocksAt_drop, ← hhead] at htail
        have hfirst : blocksAt m' p k = blocksAt r.1 p k := by
          apply blocksAt_congr
          intro x _ hhi
          exact hframe' x (.inl hhi)
        rw [blocksAt_add, blocksAt_add, Cbc.decrypt_append, hfirst, hblocks,
          hsettled htail, hhead]

/-- `setupAESstate` copies the initial block. -/
theorem setup_ivec (key ivec : Mem) (keybytes : Nat) :
    load (setupAESstate key keybytes ivec).ivec 0 = load ivec 0 := by
  apply load_congr
  intro x hlo hhi
  obtain ⟨i, rfl⟩ := Int.eq_ofNat_of_zero_le hlo
  have hi : i < (slice ivec 0 16).length := by
    rw [slice_length]
    omega
  show overlay (fun _ => 0) 0 (slice ivec 0 16) i = ivec i
  have hin := overlay_inside (fun _ => 0) 0 (slice ivec 0 16) i hi
  rw [Int.zero_add, slice_getElem, Int.zero_add] at hin
  exact hin

/-- For every key, initial block, text and two cuttings of it: the calls end,
`ivec` is right after every one of them, and the text comes back, exactly when
every decryption call is settled. -/
theorem calls_inverse_iff (eng : Engine) (m key ivec : Mem) (p : Int)
    {keybytes : Nat} (cuts cuts' : List (Nat × Block))
    (hkey : keybytes = 16 ∨ keybytes = 24 ∨ keybytes = 32)
    (htotal : total cuts = total cuts') :
    (∃ m₁ states m₂ states',
      calls (aesCBCencrypt eng) m p (setupAESstate key keybytes ivec) cuts =
        .ok (m₁, states) ∧
      calls (aesCBCdecrypt eng) m₁ p (setupAESstate key keybytes ivec) cuts' =
        .ok (m₂, states') ∧
      IvecsRight (load ivec 0) (ciphertext eng (setupAESstate key keybytes ivec)
        m p (total cuts)) cuts states ∧
      IvecsRight (load ivec 0) (ciphertext eng (setupAESstate key keybytes ivec)
        m p (total cuts)) cuts' states' ∧
      m₂ = m) ↔
    Settled (load ivec 0) (ciphertext eng (setupAESstate key keybytes ivec)
      m p (total cuts)) cuts' := by
  obtain ⟨cmd, hcmd⟩ := keyCmd_ok hkey
  have hs := setup_ivec key ivec keybytes
  have hsbytes : (setupAESstate key keybytes ivec).keybytes = keybytes := rfl
  generalize setupAESstate key keybytes ivec = s at hs hsbytes ⊢
  have hscmd : keyCmd s.keybytes = .ok cmd := by
    rw [hsbytes]
    exact hcmd
  obtain ⟨m₁, states, henc, hblocks, hframe, hright⟩ :=
    calls_encrypt eng cuts m p s hscmd
  obtain ⟨m₂, states', hdec, hframe', hiff, hplain⟩ :=
    calls_decrypt eng cuts' m₁ p s hscmd
  have hcipher : ciphertext eng s m p (total cuts) = blocksAt m₁ p (total cuts) := by
    unfold ciphertext
    rw [hscmd, hblocks]
  rw [hcipher, ← hs]
  rw [← htotal] at hiff hplain hframe'
  constructor
  · intro ⟨n₁, t, n₂, t', hn₁, hn₂, _, hr, _⟩
    rw [henc] at hn₁
    cases hn₁
    rw [hdec] at hn₂
    cases hn₂
    exact hiff.1 hr
  · intro hsettled
    refine ⟨m₁, states, m₂, states', henc, hdec, hright, hiff.2 hsettled, ?_⟩
    apply mem_eq (p := p) (k := total cuts)
    · rw [hplain hsettled, hblocks]
      exact Cbc.decrypt_encrypt Block.xor_xor (eng.dec_enc cmd (keyWords s)) _ _
    · intro x hx
      rw [hframe' x hx]
      exact hframe x hx

def zeros : Mem := fun _ => 0

def ones : Mem := fun _ => 1

def zero : Block := { data3 := 0, data2 := 0, data1 := 0, data0 := 0 }

/-- The first four key registers as a block. -/
def keyBlock : List Word → Block
  | data3 :: data2 :: data1 :: data0 :: _ =>
      { data3 := data3, data2 := data2, data1 := data1, data0 := data0 }
  | _ => zero

/-- A cipher that adds the key. -/
def keyed : Engine :=
  { enc := fun _ key b => b.xor (keyBlock key)
    dec := fun _ key b => (keyBlock key).xor b
    dec_enc := fun _ key b => Block.xor_xor b (keyBlock key) }

/-- A text of three blocks, encrypted as one and two and decrypted as two and one. -/
theorem calls_inverse_iff_keyed :
    ∃ m₁ states m₂ states',
      calls (aesCBCencrypt keyed) ones 0 (setupAESstate ones 16 zeros)
        [(1, zero), (2, zero)] = .ok (m₁, states) ∧
      calls (aesCBCdecrypt keyed) m₁ 0 (setupAESstate ones 16 zeros)
        [(2, zero), (1, zero)] = .ok (m₂, states') ∧
      IvecsRight (load zeros 0) (ciphertext keyed (setupAESstate ones 16 zeros)
        ones 0 3) [(1, zero), (2, zero)] states ∧
      IvecsRight (load zeros 0) (ciphertext keyed (setupAESstate ones 16 zeros)
        ones 0 3) [(2, zero), (1, zero)] states' ∧
      m₂ = ones :=
  (calls_inverse_iff keyed ones ones zeros 0 [(1, zero), (2, zero)]
    [(2, zero), (1, zero)] (by decide) rfl).2
      ⟨by decide +kernel, by decide +kernel, trivial⟩

/-- A cipher that changes nothing. -/
def plain : Engine :=
  { enc := fun _ _ b => b, dec := fun _ _ b => b, dec_enc := fun _ _ _ => rfl }

/-- The `ivec` after a text of one block is encrypted and decrypted. -/
def ivecAfter : Option Block :=
  match calls (aesCBCencrypt plain) ones 0 (setupAESstate zeros 16 zeros)
      [(1, zero)] with
  | .error _ => none
  | .ok (m₁, _) =>
      match calls (aesCBCdecrypt plain) m₁ 0 (setupAESstate zeros 16 zeros)
          [(1, zero)] with
      | .ok (_, [s]) => some (load s.ivec 0)
      | _ => none

/-- It is still the initial block. -/
theorem decrypt_keeps_ivec : ¬ ∀ (eng : Engine) (m key ivec : Mem) (p : Int)
    (keybytes : Nat) (cuts cuts' : List (Nat × Block)),
    (keybytes = 16 ∨ keybytes = 24 ∨ keybytes = 32) → total cuts = total cuts' →
    ∃ m₁ states m₂ states',
      calls (aesCBCencrypt eng) m p (setupAESstate key keybytes ivec) cuts =
        .ok (m₁, states) ∧
      calls (aesCBCdecrypt eng) m₁ p (setupAESstate key keybytes ivec) cuts' =
        .ok (m₂, states') ∧
      IvecsRight (load ivec 0) (ciphertext eng (setupAESstate key keybytes ivec)
        m p (total cuts)) cuts states ∧
      IvecsRight (load ivec 0) (ciphertext eng (setupAESstate key keybytes ivec)
        m p (total cuts)) cuts' states' ∧
      m₂ = m := by
  intro hall
  obtain ⟨m₁, states, m₂, states', henc, hdec, _, hright, _⟩ :=
    hall plain ones zeros zeros 0 16 [(1, zero)] [(1, zero)] (.inl rfl) rfl
  have hivec : ivecAfter = some zero := by decide +kernel
  have hlast : Cbc.last (load zeros 0) ((ciphertext plain
      (setupAESstate zeros 16 zeros) ones 0 1).take 1) ≠ zero := by
    decide +kernel
  unfold ivecAfter at hivec
  simp only [henc, hdec] at hivec
  cases states' with
  | nil => exact hright
  | cons s rest =>
      cases rest with
      | nil =>
          have hload : load s.ivec 0 = zero := Option.some.inj hivec
          exact hlast (hright.1.symm.trans hload)
      | cons t rest => cases hivec

end Kirkwood.Ports.AesCbc
