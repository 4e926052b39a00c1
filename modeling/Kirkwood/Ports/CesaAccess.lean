import Kirkwood.Ports.AesCbc
import Kirkwood.Verified.Blockwise

/-!
# What the cipher engines touch

`aes` and `des` of `cesa.c` go through a buffer from its start, a block at a time, as long
as a block starts before its end.  `aes` waits for each block; `des` keeps the engine one
block ahead, with a second pointer that trails behind.

## Main results

* `encryptLoop_run`, `decryptLoop_run`, `ecbLoop_run`, `desLoop_run`: the loops;
* `ciphers_right_iff`: both stay within the buffer exactly when its length is a multiple of
  the block size.
-/

namespace Kirkwood.Ports.CesaAccess

open Kirkwood.Verified
open Kirkwood.Verified.ByteMem
open Kirkwood.Verified.Outcome
open Kirkwood.Verified.Blockwise
open Kirkwood.Ports.CesaWords
open Kirkwood.Ports.AesCbc (Block Engine AESstate keyCmd keyWords load32)

/-! ## AES -/

instance : Inhabited Block := ⟨⟨0#32, 0#32, 0#32, 0#32⟩⟩

/-- The four words at an address. -/
def quad : Codec Block where
  size := 16
  pos := by decide
  load := AesCbc.load
  store := AesCbc.store
  load_store := AesCbc.load_store
  load_congr := AesCbc.load_congr
  store_outside := AesCbc.store_outside

/-- The engine between `data` and `AESdone`. -/
def crypt (f : Block → Block) (_ : Unit) (b : Block) : Unit × Block := ((), f b)

abbrev Aes := StateM (World Block Unit)

/-- `while(p < e)` of the chained encryption, with `v`. -/
def encryptLoop (f : Block → Block) : Nat → Int → Block → Aes Block
  | 0, _, v => return v
  | k + 1, p, v => do
      let (_, d) ← turn quad (crypt f) p (fun b => b.xor v) fun _ d => d
      encryptLoop f k (p + 16) d

/-- `while(p < e)` of the chained decryption, with `a` and `b`. -/
def decryptLoop (f : Block → Block) : Nat → Int → Block → Block → Aes Block
  | 0, _, _, b => return b
  | k + 1, p, a, _ => do
      let (b, _) ← turn quad (crypt f) p (fun b => b) fun _ d => a.xor d
      decryptLoop f k (p + 16) b a

/-- `while(p < e)` without chaining. -/
def ecbLoop (f : Block → Block) : Nat → Int → Aes Unit
  | 0, _ => return ()
  | k + 1, p => do
      let _ ← turn quad (crypt f) p (fun b => b) fun _ d => d
      ecbLoop f k (p + 16)

/-- The engine of a direction. -/
def cipher (eng : Engine) (cmd : Nat) (s : AESstate) (enc : Bool) : Block → Block :=
  if enc then eng.enc cmd (keyWords s) else eng.dec cmd (keyWords s)

/-- `aes` from where the key is set; `w` is what the variable of that name has on the
stack. -/
def process (f : Block → Block) (w : Block) (p : Int) (n : Nat) (s : AESstate)
    (enc cbc : Bool) : Aes AESstate := do
  if cbc then
    let v := AesCbc.load s.ivec 0
    let b ← if enc then encryptLoop f (turns quad n) p v
      else decryptLoop f (turns quad n) p v w
    return { s with ivec := AesCbc.store s.ivec 0 b }
  else
    ecbLoop f (turns quad n) p
    return s

/-- `aes` -/
def aes (eng : Engine) (w : Block) (p : Int) (n : Nat) (s : AESstate) (enc cbc : Bool)
    (bus : World Block Unit) : Except Exn (AESstate × World Block Unit) := do
  let cmd ← keyCmd s.keybytes
  return process (cipher eng cmd s enc) w p n s enc cbc bus

/-! ## DES -/

structure Pair where
  hi : Word
  lo : Word
deriving DecidableEq, Repr, Inhabited

def Pair.load (m : Mem) (p : Int) : Pair := ⟨load32 m p, load32 m (p + 4)⟩

def Pair.bytes (b : Pair) : Bytes := p32 b.hi ++ p32 b.lo

def Pair.store (m : Mem) (p : Int) (b : Pair) : Mem := overlay m p b.bytes

theorem Pair.load_store (m : Mem) (p : Int) (b : Pair) :
    Pair.load (Pair.store m p b) p = b := by
  have hat : ∀ (i : Nat) (hi : i < 8) (q : Int), q = p + i →
      Pair.store m p b q = b.bytes.get ⟨i, hi⟩ := by
    intro i hi q hq
    rw [hq]
    exact overlay_inside m p b.bytes i hi
  unfold Pair.load load32
  rw [hat 0 (by decide) p (by omega), hat 1 (by decide) (p + 1) (by omega),
    hat 2 (by decide) (p + 2) (by omega), hat 3 (by decide) (p + 3) (by omega),
    hat 4 (by decide) (p + 4) (by omega), hat 5 (by decide) (p + 4 + 1) (by omega),
    hat 6 (by decide) (p + 4 + 2) (by omega), hat 7 (by decide) (p + 4 + 3) (by omega)]
  cases b
  simp only [Pair.mk.injEq]
  exact ⟨g32_p32 _, g32_p32 _⟩

theorem Pair.load_congr {m m' : Mem} {p : Int}
    (h : ∀ x, p ≤ x → x < p + 8 → m x = m' x) : Pair.load m p = Pair.load m' p := by
  have hword : ∀ q, p ≤ q → q + 3 < p + 8 → load32 m q = load32 m' q := by
    intro q hlo hhi
    unfold load32
    rw [h q hlo (by omega), h (q + 1) (by omega) (by omega),
      h (q + 2) (by omega) (by omega), h (q + 3) (by omega) (by omega)]
  rw [Pair.load, Pair.load, hword p (by omega) (by omega),
    hword (p + 4) (by omega) (by omega)]

/-- The two words at an address. -/
def pair : Codec Pair where
  size := 8
  pos := by decide
  load := Pair.load
  store := Pair.store
  load_store := Pair.load_store
  load_congr := Pair.load_congr
  store_outside := fun m p b _ hx => overlay_outside m p b.bytes hx

/-- The engine, with its states: what writing the command, the keys and the initial block
makes of one, what it does to a block, and the initial block for the next. -/
structure DesEngine (σ : Type) where
  setup : Word → List Word → Option Pair → σ → σ
  crypt : σ → Pair → σ × Pair
  iv : σ → Pair

def DESwriteallow : Word := 1 <<< 29
def DESencrypt : Word := 0 <<< 0
def DESdecrypt : Word := 1 <<< 0
def DEStriple : Word := 1 <<< 1
def DESeee : Word := 0 <<< 2
def DESede : Word := 1 <<< 2
def DESecb : Word := 0 <<< 3
def DEScbc : Word := 1 <<< 3

section
variable {σ : Type} (eng : DesEngine σ)

/-- `while(p < e)`, with `q`, which is the result. -/
def desLoop : Nat → Int → Int → StateM (World Pair σ) Int
  | 0, _, q => return q
  | k + 1, p, q => do
      let b ← fetch pair p
      submit eng.crypt b
      let d ← collect
      put pair q d
      desLoop k (p + 8) (q + 8)

/-- `key0lo`, `key0hi` and, for triple DES, the others. -/
def desKeys (key : Mem) (triple : Bool) : List Word :=
  [load32 key 4, load32 key 0] ++
    if triple then [load32 key 12, load32 key 8, load32 key 20, load32 key 16] else []

def desCmd (cbc enc triple eee : Bool) : Word :=
  DESwriteallow ||| (if enc then DESencrypt else DESdecrypt) |||
    (if cbc then DEScbc else DESecb) ||| (if triple then DEStriple else 0#32) |||
    (if eee then DESeee else DESede)

/-- `des`; the result is `ivec`. -/
def des (p : Int) (n : Nat) (key : Mem) (ivec : Option Mem) (enc triple eee : Bool) :
    StateM (World Pair σ) (Option Mem) := do
  if n = 0 then return ivec
  else
    modify fun w => { w with
      engine := eng.setup (desCmd ivec.isSome enc triple eee) (desKeys key triple)
        (ivec.map fun iv => Pair.load iv 0) w.engine }
    let b ← fetch pair p
    submit eng.crypt b
    let q ← desLoop eng (turns pair n - 1) (p + 8) p
    let d ← collect
    put pair q d
    let w ← get
    return ivec.map fun iv => Pair.store iv 0 (eng.iv w.engine)

end

/-! ## The loops -/

/-- What the chained encryption submits. -/
def chained (f : Block → Block) : Block → List Block → List Block
  | _, [] => []
  | v, b :: bs => b.xor v :: chained f (f (b.xor v)) bs

section
variable (f : Block → Block)

/-- Behind a block that was put back the buffer is as before. -/
private theorem blocks_behind (w : World Block Unit) (p : Int) (i d b : Block) (k : Nat) :
    blocks quad (w.advance quad p [i] [d] [b] ()).mem (p + 16) k =
      blocks quad w.mem (p + 16) k :=
  blocks_store w.mem p b (Int.le_refl _) k

private theorem go_on (w : World Block Unit) (p : Int) (i d b : Block)
    (ins ds bs : List Block) :
    (w.advance quad p [i] [d] [b] ()).advance quad (p + 16) ins ds bs () =
      w.advance quad p (i :: ins) (d :: ds) (b :: bs) () :=
  advance_advance ..

private theorem turn_quad {w : World Block Unit} (h : w.queue = []) (p : Int)
    (pre : Block → Block) (post : Block → Block → Block) :
    turn quad (crypt f) p pre post w =
      ((AesCbc.load w.mem p, f (pre (AesCbc.load w.mem p))),
        w.advance quad p [pre (AesCbc.load w.mem p)] [f (pre (AesCbc.load w.mem p))]
          [post (AesCbc.load w.mem p) (f (pre (AesCbc.load w.mem p)))] ()) :=
  turn_run h p pre post

theorem encryptLoop_run (k : Nat) (p : Int) (v : Block) {w : World Block Unit}
    (h : w.queue = []) :
    encryptLoop f k p v w =
      (Cbc.last v (Cbc.encrypt Block.xor f v (blocks quad w.mem p k)),
        w.advance quad p (chained f v (blocks quad w.mem p k))
          (Cbc.encrypt Block.xor f v (blocks quad w.mem p k))
          (Cbc.encrypt Block.xor f v (blocks quad w.mem p k)) ()) := by
  induction k generalizing p v w with
  | zero => exact congrArg (Prod.mk v) (advance_nil h p).symm
  | succ k ih =>
      rw [encryptLoop, bind_run (turn_quad f h p _ _)]
      refine (ih (p + 16) _ rfl).trans ?_
      rw [blocks_behind, go_on]
      refine Prod.ext ?_ rfl
      exact (Cbc.last_cons v ..).symm

theorem decryptLoop_run (k : Nat) (p : Int) (a b : Block) {w : World Block Unit}
    (h : w.queue = []) :
    decryptLoop f k p a b w =
      (AesCbc.left a b (blocks quad w.mem p k),
        w.advance quad p (blocks quad w.mem p k) ((blocks quad w.mem p k).map f)
          (Cbc.decrypt Block.xor f a (blocks quad w.mem p k)) ()) := by
  induction k generalizing p a b w with
  | zero => exact congrArg (Prod.mk b) (advance_nil h p).symm
  | succ k ih =>
      rw [decryptLoop, bind_run (turn_quad f h p _ _)]
      refine (ih (p + 16) _ _ rfl).trans ?_
      rw [blocks_behind, go_on]
      refine Prod.ext ?_ rfl
      exact (AesCbc.left_cons a b ..).symm

theorem ecbLoop_run (k : Nat) (p : Int) {w : World Block Unit} (h : w.queue = []) :
    ecbLoop f k p w =
      ((), w.advance quad p (blocks quad w.mem p k) ((blocks quad w.mem p k).map f)
        ((blocks quad w.mem p k).map f) ()) := by
  induction k generalizing p w with
  | zero => exact congrArg (Prod.mk ()) (advance_nil h p).symm
  | succ k ih =>
      rw [ecbLoop, bind_run (turn_quad f h p _ _)]
      refine (ih (p + 16) rfl).trans ?_
      rw [blocks_behind, go_on]
      rfl

end

section
variable {σ : Type} (eng : DesEngine σ)

/-- A turn, with one output waiting. -/
private theorem desLoop_turn (k : Nat) (q : Int) {w : World Pair σ} {d : Pair}
    (h : w.queue = [d]) :
    desLoop eng (k + 1) (q + 8) q w = desLoop eng k (q + 8 + 8) (q + 8)
      { mem := Pair.store w.mem q d
        reads := w.reads ++ [q + 8]
        writes := w.writes ++ [q]
        engine := (eng.crypt w.engine (Pair.load w.mem (q + 8))).1
        queue := [(eng.crypt w.engine (Pair.load w.mem (q + 8))).2]
        submitted := w.submitted ++ [Pair.load w.mem (q + 8)]
        collected := w.collected ++ [d] } := by
  cases w
  cases h
  rfl

/-- The loop and what follows it. -/
theorem desLoop_run (k : Nat) (q : Int) {w : World Pair σ} {d : Pair} (h : w.queue = [d]) :
    (do let q ← desLoop eng k (q + 8) q
        let d ← collect
        put pair q d) w =
      ((),
        { mem := putAll pair w.mem q
            (d :: outs eng.crypt w.engine (blocks pair w.mem (q + 8) k))
          reads := w.reads ++ addrs pair (q + 8) k
          writes := w.writes ++ addrs pair q (k + 1)
          engine := final eng.crypt w.engine (blocks pair w.mem (q + 8) k)
          queue := []
          submitted := w.submitted ++ blocks pair w.mem (q + 8) k
          collected := w.collected ++
            d :: outs eng.crypt w.engine (blocks pair w.mem (q + 8) k) }) := by
  induction k generalizing q w d with
  | zero =>
      show (do
        let d ← collect
        put pair q d) w = _
      rw [bind_run (collect_run h)]
      simp only [addrs, blocks, List.append_nil]
      rfl
  | succ k ih =>
      have hmem : blocks pair (Pair.store w.mem q d) (q + 8 + 8) k =
          blocks pair w.mem (q + 8 + 8) k :=
        blocks_store w.mem q d (by show q + 8 ≤ _; omega) k
      refine (bind_run (desLoop_turn eng k q h)).trans ((ih (q + 8) rfl).trans ?_)
      rw [hmem]
      simp only [List.append_assoc, List.singleton_append]
      rfl

theorem turns_pair {n : Nat} (h : n ≠ 0) : turns pair n = turns pair n - 1 + 1 := by
  have hone : 1 ≤ turns pair n :=
    (Nat.one_le_div_iff (by decide)).2 (by show 8 ≤ n + 7; omega)
  omega

end

/-! ## The calls -/

/-- What is submitted for a text. -/
def submits (f : Block → Block) (v : Block) (enc cbc : Bool) (bs : List Block) :
    List Block :=
  if cbc && enc then chained f v bs else bs

/-- What a text is replaced by. -/
def replaces (f : Block → Block) (v : Block) (enc cbc : Bool) (bs : List Block) :
    List Block :=
  if cbc then if enc then Cbc.encrypt Block.xor f v bs else Cbc.decrypt Block.xor f v bs
  else bs.map f

/-- `aes` raises before it looks at the buffer, or stays within it, and goes through whole
blocks in order. -/
def AesRight (eng : Engine) (w : Block) (m : Mem) (p : Int) (n : Nat) (s : AESstate)
    (enc cbc : Bool) : Prop :=
  match aes eng w p n s enc cbc (idle m ()) with
  | .error _ => True
  | .ok (_, bus) => Confined quad p n bus ∧
      (16 ∣ n → ∃ cmd, keyCmd s.keybytes = .ok cmd ∧
        Replaced quad m p (n / 16)
          (submits (cipher eng cmd s enc) (AesCbc.load s.ivec 0) enc cbc
            (blocks quad m p (n / 16)))
          ((submits (cipher eng cmd s enc) (AesCbc.load s.ivec 0) enc cbc
            (blocks quad m p (n / 16))).map (cipher eng cmd s enc))
          (replaces (cipher eng cmd s enc) (AesCbc.load s.ivec 0) enc cbc
            (blocks quad m p (n / 16))) bus)

theorem map_chained (f : Block → Block) (v : Block) (bs : List Block) :
    (chained f v bs).map f = Cbc.encrypt Block.xor f v bs := by
  induction bs generalizing v with
  | nil => rfl
  | cons b bs ih => exact congrArg (List.cons _) (ih _)

theorem process_run (f : Block → Block) (w : Block) (p : Int) (n : Nat) (s : AESstate)
    (enc cbc : Bool) {bus : World Block Unit} (h : bus.queue = []) :
    (process f w p n s enc cbc bus).2 = bus.advance quad p
      (submits f (AesCbc.load s.ivec 0) enc cbc (blocks quad bus.mem p (turns quad n)))
      ((submits f (AesCbc.load s.ivec 0) enc cbc
        (blocks quad bus.mem p (turns quad n))).map f)
      (replaces f (AesCbc.load s.ivec 0) enc cbc (blocks quad bus.mem p (turns quad n)))
      () := by
  cases cbc with
  | false =>
      show (ecbLoop f (turns quad n) p bus).2 = _
      rw [ecbLoop_run f _ _ h]
      rfl
  | true =>
      cases enc with
      | true =>
          show (encryptLoop f (turns quad n) p _ bus).2 = _
          rw [encryptLoop_run f _ _ _ h, submits, replaces]
          simp [map_chained]
      | false =>
          show (decryptLoop f (turns quad n) p _ w bus).2 = _
          rw [decryptLoop_run f _ _ _ _ h]
          rfl

theorem submits_length (f : Block → Block) (v : Block) (enc cbc : Bool) (bs : List Block) :
    (submits f v enc cbc bs).length = bs.length ∧
      (replaces f v enc cbc bs).length = bs.length := by
  have hchained : (chained f v bs).length = bs.length := by
    rw [← List.length_map f, map_chained, Cbc.encrypt_length]
  cases cbc <;> cases enc <;> simp [submits, replaces, hchained]

theorem process_confined (f : Block → Block) (w : Block) (m : Mem) (p : Int) (n : Nat)
    (s : AESstate) (enc cbc : Bool) :
    Confined quad p n (process f w p n s enc cbc (idle m ())).2 ↔ 16 ∣ n := by
  rw [process_run f w p n s enc cbc rfl]
  apply confined_iff
  · show addrs quad p _ = _
    rw [(submits_length ..).2, blocks_length]
  · show addrs quad p _ = _
    rw [(submits_length ..).2, blocks_length]

theorem process_replaced (f : Block → Block) (w : Block) (m : Mem) (p : Int) {n : Nat}
    (s : AESstate) (enc cbc : Bool) (h : 16 ∣ n) :
    Replaced quad m p (n / 16)
      (submits f (AesCbc.load s.ivec 0) enc cbc (blocks quad m p (n / 16)))
      ((submits f (AesCbc.load s.ivec 0) enc cbc (blocks quad m p (n / 16))).map f)
      (replaces f (AesCbc.load s.ivec 0) enc cbc (blocks quad m p (n / 16)))
      (process f w p n s enc cbc (idle m ())).2 := by
  have hturns : turns quad n = n / 16 := turns_dvd h
  rw [process_run f w p n s enc cbc rfl, hturns]
  have hlen := submits_length f (AesCbc.load s.ivec 0) enc cbc (blocks quad m p (n / 16))
  rw [blocks_length] at hlen
  exact replaced_advance hlen.1 (by rw [List.length_map]; exact hlen.1) hlen.2

theorem aes_iff (eng : Engine) (w : Block) (m : Mem) (p : Int) (n : Nat) (s : AESstate)
    (enc cbc : Bool) :
    AesRight eng w m p n s enc cbc ↔ ((∃ cmd, keyCmd s.keybytes = .ok cmd) → 16 ∣ n) := by
  unfold AesRight aes
  cases hcmd : keyCmd s.keybytes with
  | error e => simp
  | ok cmd =>
      have hconf := process_confined (cipher eng cmd s enc) w m p n s enc cbc
      constructor
      · intro h _
        exact hconf.1 h.1
      · intro h
        have hdvd : 16 ∣ n := h ⟨cmd, rfl⟩
        exact ⟨hconf.2 hdvd, fun _ => ⟨cmd, rfl, process_replaced _ w m p s enc cbc hdvd⟩⟩

/-- The engine once the command, the keys and the initial block are written. -/
def ready {σ : Type} (eng : DesEngine σ) (key : Mem) (ivec : Option Mem)
    (enc triple eee : Bool) (s : σ) : σ :=
  eng.setup (desCmd ivec.isSome enc triple eee) (desKeys key triple)
    (ivec.map fun iv => Pair.load iv 0) s

/-- `des` stays within the buffer, and goes through whole blocks in order. -/
def DesRight {σ : Type} (eng : DesEngine σ) (s : σ) (m : Mem) (p : Int) (n : Nat)
    (key : Mem) (ivec : Option Mem) (enc triple eee : Bool) : Prop :=
  Confined pair p n (des eng p n key ivec enc triple eee (idle m s)).2 ∧
    (8 ∣ n → Replaced pair m p (n / 8) (blocks pair m p (n / 8))
      (outs eng.crypt (ready eng key ivec enc triple eee s) (blocks pair m p (n / 8)))
      (outs eng.crypt (ready eng key ivec enc triple eee s) (blocks pair m p (n / 8)))
      (des eng p n key ivec enc triple eee (idle m s)).2)

theorem des_run {σ : Type} (eng : DesEngine σ) (s : σ) (m : Mem) (p : Int) (n : Nat)
    (key : Mem) (ivec : Option Mem) (enc triple eee : Bool) :
    (des eng p n key ivec enc triple eee (idle m s)).2 = (idle m s).advance pair p
      (blocks pair m p (turns pair n))
      (outs eng.crypt (ready eng key ivec enc triple eee s)
        (blocks pair m p (turns pair n)))
      (outs eng.crypt (ready eng key ivec enc triple eee s)
        (blocks pair m p (turns pair n)))
      (if n = 0 then s else final eng.crypt (ready eng key ivec enc triple eee s)
        (blocks pair m p (turns pair n))) := by
  by_cases hn : n = 0
  · subst hn
    rfl
  · have hturns := turns_pair hn
    rw [des, if_neg hn, if_neg hn]
    -- the first block is in the engine when the loop starts
    have hloop := congrArg Prod.snd (desLoop_run eng (turns pair n - 1) p
      (w := { mem := m, reads := [p], writes := []
              engine := (eng.crypt (ready eng key ivec enc triple eee s) (Pair.load m p)).1
              queue := [(eng.crypt (ready eng key ivec enc triple eee s) (Pair.load m p)).2]
              submitted := [Pair.load m p], collected := [] }) rfl)
    refine Eq.trans ?_ (hloop.trans ?_)
    · rfl
    · rw [hturns, Nat.add_sub_cancel, World.advance, outs_length, blocks_length]
      rfl

theorem des_iff {σ : Type} (eng : DesEngine σ) (s : σ) (m : Mem) (p : Int) (n : Nat)
    (key : Mem) (ivec : Option Mem) (enc triple eee : Bool) :
    DesRight eng s m p n key ivec enc triple eee ↔ 8 ∣ n := by
  have hconf :
      Confined pair p n (des eng p n key ivec enc triple eee (idle m s)).2 ↔ 8 ∣ n := by
    rw [des_run]
    apply confined_iff
    · show addrs pair p _ = _
      rw [outs_length, blocks_length]
    · show addrs pair p _ = _
      rw [outs_length, blocks_length]
  constructor
  · exact fun h => hconf.1 h.1
  · intro hdvd
    refine ⟨hconf.2 hdvd, fun _ => ?_⟩
    have hturns : turns pair n = n / 8 := turns_dvd hdvd
    rw [des_run, hturns]
    exact replaced_advance (blocks_length ..) (by rw [outs_length, blocks_length])
      (by rw [outs_length, blocks_length])

/-- Both stay within the buffer exactly when its length is a multiple of the block size;
then they replace its blocks in order, each given to and taken from the engine once. -/
theorem ciphers_right_iff {σ : Type} (eng : Engine) (des : DesEngine σ) (w : Block) (t : σ)
    (m : Mem) (p : Int) (n : Nat) (s : AESstate) (key : Mem) (ivec : Option Mem)
    (enc cbc triple eee : Bool) :
    (AesRight eng w m p n s enc cbc ↔ ((∃ cmd, keyCmd s.keybytes = .ok cmd) → 16 ∣ n)) ∧
      (DesRight des t m p n key ivec enc triple eee ↔ 8 ∣ n) :=
  ⟨aes_iff eng w m p n s enc cbc, des_iff des t m p n key ivec enc triple eee⟩

/-- An engine that changes nothing. -/
def idleDes : DesEngine Unit where
  setup := fun _ _ _ s => s
  crypt := fun s b => (s, b)
  iv := fun _ => ⟨0#32, 0#32⟩

/-- A buffer of one byte: both go beyond it. -/
theorem onebyte_not_right :
    ¬ ∀ (eng : Engine) (des : DesEngine Unit) (w : Block) (m : Mem) (p : Int) (n : Nat)
      (s : AESstate) (key : Mem) (ivec : Option Mem) (enc cbc triple eee : Bool),
      AesRight eng w m p n s enc cbc ∧ DesRight des () m p n key ivec enc triple eee := by
  intro hall
  have h := (hall AesCbc.plain idleDes AesCbc.zero AesCbc.ones 0 1
    (AesCbc.setupAESstate AesCbc.zeros 16 AesCbc.zeros) AesCbc.zeros none true false false
    false).2.1
  have hlast := (h 0 (by decide)).2
  exact absurd hlast (by decide)

end Kirkwood.Ports.CesaAccess
