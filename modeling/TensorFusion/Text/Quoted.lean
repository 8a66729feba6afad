import TensorFusion.Text.Points
import TensorFusion.Text.Printable

/-!
# Text — Quoted

Text between quotes, with escapes for what would not show. The apostrophe is the quote, unless the
text holds apostrophes and no double quote.
-/

namespace TensorFusion.Quoted

def escape (quote : Char) (c : Char) : List Char :=
  if c = quote || c = '\\' then ['\\', c]
  else if c = '\t' then ['\\', 't']
  else if c = '\n' then ['\\', 'n']
  else if c = '\r' then ['\\', 'r']
  else if Printable.isPrintable c then [c]
  else if c.toNat ≤ 0xff then '\\' :: 'x' :: Points.hex c.toNat 2
  else if c.toNat ≤ 0xffff then '\\' :: 'u' :: Points.hex c.toNat 4
  else '\\' :: 'U' :: Points.hex c.toNat 8

def escapePoint (quote : Char) (point : Nat) : List Char :=
  if Points.isHalf point then Points.spellHalf point else escape quote (Char.ofNat point)

def quoteFor (points : List Nat) : Char :=
  if points.contains 0x27 && !points.contains 0x22 then '"' else '\''

def encodePoints (points : List Nat) : String :=
  let quote := quoteFor points
  String.ofList (quote :: points.flatMap (escapePoint quote) ++ [quote])

def encode (s : String) : String := encodePoints (Points.ofText s)

end TensorFusion.Quoted
