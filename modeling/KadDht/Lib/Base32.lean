import KadDht.Lib.Base64

/-!
# Lib — text without separators

`Base32Lib` is what programs use of a package for base32 without padding: what was encoded is read
back, and the text can be a component of a path. Base64 with the URL alphabet has these properties,
too.
-/

namespace KadDht

class Base32Lib where
  encode : List UInt8 → List Char
  decode : List Char → Option (List UInt8)
  decode_encode (bs : List UInt8) : decode (encode bs) = some bs
  encode_nil : encode [] = []
  no_slash (bs : List UInt8) : '/' ∉ encode bs
  no_dot (bs : List UInt8) : '.' ∉ encode bs

namespace Base32Lib

variable [Base32Lib]

theorem encode_injective : Function.Injective encode := by
  intro bs bs' h
  have hdecode := congrArg decode h
  rw [decode_encode, decode_encode] at hdecode
  exact Option.some.inj hdecode

theorem encode_ne_nil {bs : List UInt8} (h : bs ≠ []) : encode bs ≠ [] := fun hnil =>
  h (encode_injective (hnil.trans encode_nil.symm))

end Base32Lib

@[reducible] def base64Text : Base32Lib where
  encode := Base64.encode
  decode := Base64.decode
  decode_encode := Base64.decode_encode
  encode_nil := rfl
  no_slash bs := Base64.not_mem_encode bs (by decide) (by decide)
  no_dot bs := Base64.not_mem_encode bs (by decide) (by decide)

end KadDht
