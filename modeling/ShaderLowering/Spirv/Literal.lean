import ShaderLowering.Bytes
import ShaderLowering.Spirv.Instruction

/-!
# Literal strings

A string among operands is written as its UTF-8 bytes, closed by a zero byte and filled with zeros
to a whole word, each word little-endian.  A string whose bytes fill their last word needs one more
word for the closing zero.
-/

namespace ShaderLowering.Spirv

/-- The words of a byte string that is closed by at least one zero byte. -/
def literalBytes : List UInt8 → List Word
  | a :: b :: c :: d :: rest => Bytes.toWord [a, b, c, d] :: literalBytes rest
  | short => [Bytes.toWord short]

def literalString (s : String) : List Word :=
  literalBytes s.toUTF8.data.toList

end ShaderLowering.Spirv
