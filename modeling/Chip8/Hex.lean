/-!
# Hexadecimal text

Numbers are written in upper case hexadecimal, padded with zeros to a least width.  The width
counts the minus sign of a negative number, so `-5` in width 3 is `-05`.
-/

namespace Chip8.Hex

/-- The hexadecimal digit of value `d`, for `d < 16`. -/
def digit (d : Nat) : Char :=
  if d < 10 then Char.ofNat (48 + d) else Char.ofNat (55 + d)

/-- The hexadecimal digits of `n`, most significant first and without leading zeros. -/
def digits (n : Nat) : List Char :=
  if n < 16 then [digit n] else digits (n / 16) ++ [digit (n % 16)]

theorem digits_ne_nil (n : Nat) : digits n ≠ [] := by
  unfold digits
  split <;> simp

/-- The text of `n` in at least `width` places, the sign of a negative number included. -/
def padded (width : Nat) (n : Int) : String :=
  let body := digits n.natAbs
  let sign := if n < 0 then ['-'] else []
  let zeros := List.replicate (width - sign.length - body.length) '0'
  String.ofList (sign ++ zeros ++ body)

/-- The text of `n` without padding. -/
def text (n : Int) : String :=
  padded 0 n

end Chip8.Hex
