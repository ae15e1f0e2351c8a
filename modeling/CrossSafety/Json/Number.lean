import CrossSafety.Json.Basic

/-!
# Numbers and blanks

The grammar of numbers, and the characters that may stand between the parts of a value.
-/
namespace CrossSafety.Json

def isBlank (c : UInt8) : Bool := c == 32 || c == 10 || c == 13 || c == 9

def skipBlanks (input : Bytes) : Bytes := input.dropWhile isBlank

def isDigit (c : UInt8) : Bool := 48 ≤ c && c ≤ 57

def isNumberPart (c : UInt8) : Bool :=
  isDigit c || c == 43 || c == 45 || c == 46 || c == 69 || c == 101

def isDigits (bytes : Bytes) : Bool := !bytes.isEmpty && bytes.all isDigit

def isExponent : Bytes → Bool
  | [] => true
  | c :: rest =>
    (c == 69 || c == 101) &&
      match rest with
      | 43 :: digits => isDigits digits
      | 45 :: digits => isDigits digits
      | digits => isDigits digits

/-- Whether bytes are a fraction and an exponent, either of which may be missing. -/
def isFraction : Bytes → Bool
  | 46 :: c :: rest => isDigit c && isExponent (rest.dropWhile isDigit)
  | rest => isExponent rest

def isUnsigned : Bytes → Bool
  | [] => false
  | 48 :: rest => isFraction rest
  | c :: rest => isDigit c && isFraction (rest.dropWhile isDigit)

def isNumber : Bytes → Bool
  | 45 :: rest => isUnsigned rest
  | rest => isUnsigned rest

def number? (input : Bytes) : Option (Json × Bytes) :=
  let literal := input.takeWhile isNumberPart
  if isNumber literal then some (.number literal, input.dropWhile isNumberPart) else none

end CrossSafety.Json
