import Mathlib.Data.List.Basic

/-!
# Cipher block chaining

Blocks of any type with a combining operation `mix` that undoes itself, and a
block cipher `enc` with its inverse `dec`.  A text is encrypted by mixing each
block with the ciphertext block before it, the first one with an initial block.

## Main results

* `encrypt_append`, `decrypt_append`: a text may be cut anywhere, the chain going
  on from the last ciphertext block;
* `decrypt_encrypt`: decryption undoes encryption.
-/

namespace Kirkwood.Verified.Cbc

universe u

variable {β : Type u}

/-- The last ciphertext block, the initial one if there is none. -/
def last (v : β) (cs : List β) : β := cs.getLastD v

def encrypt (mix : β → β → β) (enc : β → β) : β → List β → List β
  | _, [] => []
  | v, b :: bs => enc (mix b v) :: encrypt mix enc (enc (mix b v)) bs

def decrypt (mix : β → β → β) (dec : β → β) : β → List β → List β
  | _, [] => []
  | v, c :: cs => mix v (dec c) :: decrypt mix dec c cs

@[simp] theorem last_nil (v : β) : last v [] = v := rfl

@[simp] theorem last_cons (v c : β) (cs : List β) :
    last v (c :: cs) = last c cs := by
  unfold last
  exact List.getLastD_cons

section
variable {mix : β → β → β} {enc dec : β → β}

@[simp] theorem encrypt_length (v : β) (bs : List β) :
    (encrypt mix enc v bs).length = bs.length := by
  induction bs generalizing v with
  | nil => rfl
  | cons b bs ih => exact congrArg Nat.succ (ih _)

@[simp] theorem decrypt_length (v : β) (cs : List β) :
    (decrypt mix dec v cs).length = cs.length := by
  induction cs generalizing v with
  | nil => rfl
  | cons c cs ih => exact congrArg Nat.succ (ih _)

theorem encrypt_append (v : β) (bs ds : List β) :
    encrypt mix enc v (bs ++ ds) = encrypt mix enc v bs ++
      encrypt mix enc (last v (encrypt mix enc v bs)) ds := by
  induction bs generalizing v with
  | nil => rfl
  | cons b bs ih =>
      show enc (mix b v) :: encrypt mix enc (enc (mix b v)) (bs ++ ds) = _
      rw [ih]
      show _ = enc (mix b v) :: (encrypt mix enc (enc (mix b v)) bs ++
        encrypt mix enc (last v (enc (mix b v) :: encrypt mix enc _ bs)) ds)
      rw [last_cons]

theorem decrypt_append (v : β) (cs ds : List β) :
    decrypt mix dec v (cs ++ ds) =
      decrypt mix dec v cs ++ decrypt mix dec (last v cs) ds := by
  induction cs generalizing v with
  | nil => rfl
  | cons c cs ih =>
      show mix v (dec c) :: decrypt mix dec c (cs ++ ds) = _
      rw [ih, last_cons]
      rfl

/-- Decryption undoes encryption. -/
theorem decrypt_encrypt (hmix : ∀ a b, mix b (mix a b) = a)
    (hdec : ∀ b, dec (enc b) = b) (v : β) (bs : List β) :
    decrypt mix dec v (encrypt mix enc v bs) = bs := by
  induction bs generalizing v with
  | nil => rfl
  | cons b bs ih =>
      show mix v (dec (enc (mix b v))) ::
        decrypt mix dec (enc (mix b v)) (encrypt mix enc _ bs) = b :: bs
      rw [hdec, hmix, ih]

end

end Kirkwood.Verified.Cbc
