import CrossSafety.Json.Fraction

/-!
# Attempts to read a number

A whole number of 64 bits is asked for. An attempt to read it goes on up to the first character
that rules it out, or to the end of a value of another kind, and there it stops. `attempt` says
where that is and why, for every way in which a text can start. `failure?` says why a whole text is
no such number, and in which line and column.
-/
namespace CrossSafety.Json

inductive Fault where
  | ended
  | openString
  | noValue
  | badWord
  | badNumber
  | outOfRange
  | badEscape
  | badText
  | controlCharacter
  /-- The second unit of an escaped character stands alone, or the unit that follows a first one is
  no second one. -/
  | loneUnit
  /-- Nothing that could be a second unit follows the first one of an escaped character. -/
  | missingUnit
  | trailing
  | null
  | bool (value : Bool)
  | negative (distance : Nat)
  /-- The value is a floating-point number with these bits. -/
  | fraction (bits : UInt64)
  | text (value : String)
  | array
  | object
deriving DecidableEq

def Fault.message : Fault → String
  | .ended => "unexpected end"
  | .openString => "unexpected end of a string"
  | .noValue => "expected a value"
  | .badWord => "unknown word"
  | .badNumber => "invalid number"
  | .outOfRange => "number out of range"
  | .badEscape => "invalid escape"
  | .badText => "invalid text"
  | .controlCharacter => "control character in a string"
  | .loneUnit => "second unit of a character without a first one"
  | .missingUnit => "first unit of a character without a second one"
  | .trailing => "trailing characters"
  | .null => "expected a number, not null"
  | .bool value => "expected a number, not " ++ toString value
  | .negative distance => "expected a number, not -" ++ toString distance
  | .fraction _ => "expected a whole number"
  | .text value => "expected a number, not the text " ++ value
  | .array => "expected a number, not an array"
  | .object => "expected a number, not an object"

structure Stop where
  fault : Fault
  /-- Whether the first character that was not passed over is at fault. -/
  ahead : Bool
  rest : Bytes
deriving DecidableEq

namespace Stop

/-- Stops behind what was passed over. -/
def behind (fault : Fault) (rest : Bytes) : Stop := ⟨fault, false, rest⟩

def before (fault : Fault) (rest : Bytes) : Stop := ⟨fault, true, rest⟩

end Stop

/-! ## Words and strings -/

/-- Reads a fixed word, which stands for a value of another kind. -/
def wordStop (whole : Fault) : Bytes → Bytes → Stop
  | [], rest => .behind whole rest
  | _, [] => .behind .ended []
  | c :: word, d :: rest => if c = d then wordStop whole word rest else .behind .badWord rest

/-- Whether a unit of an escaped character is the first one of two. -/
def isHighSurrogate (unit : Nat) : Bool := 0xD800 ≤ unit && unit < 0xDC00

/-- Whether a unit of an escaped character is the second one of two. -/
def isLowSurrogate (unit : Nat) : Bool := 0xDC00 ≤ unit && unit < 0xE000

/-- Reads the second unit of an escaped character and returns the text after it. -/
def secondUnit : Bytes → Except Stop Bytes
  | 92 :: 117 :: a :: b :: c :: d :: rest =>
    match codeUnit? a b c d with
    | none => .error (.behind .badEscape rest)
    | some unit => if isLowSurrogate unit then .ok rest else .error (.behind .loneUnit rest)
  | 92 :: 117 :: _ => .error (.behind .openString [])
  | 92 :: _ :: rest => .error (.behind .missingUnit rest)
  | 92 :: [] => .error (.behind .openString [])
  | _ :: rest => .error (.behind .missingUnit rest)
  | [] => .error (.behind .openString [])

theorem length_secondUnit {input rest : Bytes} (h : secondUnit input = .ok rest) :
    rest.length ≤ input.length := by
  unfold secondUnit at h
  split at h
  · split at h
    · simp at h
    · split at h
      · cases h
        simp only [List.length_cons]
        omega
      · simp at h
  all_goals simp at h

/-- The fault of a string where a number is asked for. -/
def stringFault (spelling : Bytes) : Fault := ((spelled? spelling).map .text).getD .badText

/-- Reads what is left of a string, which started with `start`. -/
def stringStop (start : Bytes) : Bytes → Stop
  | [] => .behind .openString []
  | 34 :: rest => .behind (stringFault (start.take (start.length - (rest.length + 1)))) rest
  | 92 :: 117 :: a :: b :: c :: d :: rest =>
    match codeUnit? a b c d with
    | none => .behind .badEscape rest
    | some unit =>
      if isLowSurrogate unit then .behind .loneUnit rest
      else if isHighSurrogate unit then
        match _h : secondUnit rest with
        | .error stop => stop
        | .ok rest => stringStop start rest
      else stringStop start rest
  | 92 :: 117 :: _ => .behind .openString []
  | 92 :: c :: rest =>
    if (simpleEscape? c).isSome then stringStop start rest else .behind .badEscape rest
  | c :: rest =>
    if isControl c then .behind .controlCharacter rest else stringStop start rest
termination_by input => input.length
decreasing_by
  · have := length_secondUnit _h
    simp only [List.length_cons]
    omega
  all_goals simp only [List.length_cons]
  all_goals omega

/-! ## Numbers -/

/-- The highest exponent that a number may spell out. -/
def maxExponent : Nat := 2147483647

/-- Reads digits of an exponent after those read so far. If it gets too high, the reading stops
there when the exponent `counts`; otherwise the digits are read to their end and there is no
exponent. -/
def exponentDigits (counts : Bool) : Nat → Bytes → Except Stop (Option Nat × Bytes)
  | exponent, [] => .ok (some exponent, [])
  | exponent, c :: rest =>
    if isDigit c then
      let exponent := 10 * exponent + Scaled.digitOf c
      if exponent ≤ maxExponent then exponentDigits counts exponent rest
      else if counts then .error (.behind .outOfRange rest)
      else .ok (none, rest.dropWhile isDigit)
    else .ok (some exponent, c :: rest)

def floatStop (negative : Bool) (n : Scaled) (rest : Bytes) : Stop :=
  .behind (((n.bits? negative).map .fraction).getD .outOfRange) rest

/-- Reads an exponent behind its mark. It does not count if it is negative or the number zero, and
if it is too high then, the number is zero. -/
def exponentStop (negative : Bool) (n : Scaled) (input : Bytes) : Stop :=
  let (down, digits) := match input with
    | 43 :: rest => (false, rest)
    | 45 :: rest => (true, rest)
    | rest => (false, rest)
  match digits with
  | [] => .behind .ended []
  | c :: rest =>
    if isDigit c then
      match exponentDigits (n.significand != 0 && !down) 0 (c :: rest) with
      | .error stop => stop
      | .ok (none, rest) => floatStop negative ⟨0, 0⟩ rest
      | .ok (some exponent, rest) =>
        let shift : Int := if down then -exponent else exponent
        floatStop negative { n with exponent := n.exponent + shift } rest
    else .behind .badNumber rest

/-- Reads a fraction and an exponent behind the point. -/
def fractionStop (negative : Bool) (n : Scaled) (input : Bytes) : Stop :=
  match input.takeWhile isDigit with
  | [] => if input.isEmpty then .behind .ended [] else .before .badNumber input
  | digits =>
    let n := n.withFraction digits
    match input.drop digits.length with
    | 69 :: rest => exponentStop negative n rest
    | 101 :: rest => exponentStop negative n rest
    | rest => floatStop negative n rest

/-- Reads what follows the digits in front of the point. A number below zero, or one that is too
high, is not asked for. -/
def attemptEnd (negative : Bool) (n : Scaled) : Bytes → Except Stop (Nat × Bytes)
  | 46 :: rest => .error (fractionStop negative n rest)
  | 69 :: rest => .error (exponentStop negative n rest)
  | 101 :: rest => .error (exponentStop negative n rest)
  | rest =>
    if n.exponent = 0 ∧ !negative then .ok (n.significand, rest)
    else if n.exponent = 0 ∧ 0 < n.significand ∧ n.significand ≤ 9223372036854775808 then
      .error (.behind (.negative n.significand) rest)
    else .error (floatStop negative n rest)

/-- Reads a number behind its sign. It starts with a digit, and a zero in front has no digit after
it. -/
def attemptDigits (negative : Bool) : Bytes → Except Stop (Nat × Bytes)
  | [] => .error (.behind .ended [])
  | 48 :: c :: rest =>
    if isDigit c then .error (.before .badNumber (c :: rest))
    else attemptEnd negative ⟨0, 0⟩ (c :: rest)
  | c :: rest =>
    if isDigit c then
      let digits := (c :: rest).takeWhile isDigit
      attemptEnd negative (.ofDigits digits) ((c :: rest).drop digits.length)
    else .error (.behind .badNumber rest)

/-- Attempts to read a whole number of 64 bits, and returns it with the text after it. -/
def attempt (input : Bytes) : Except Stop (Nat × Bytes) :=
  match input with
  | [] => .error (.behind .ended [])
  | c :: rest =>
    match Char.ofUInt8 c with
    | 'n' => .error (wordStop .null (Bytes.ofText "ull") rest)
    | 't' => .error (wordStop (.bool true) (Bytes.ofText "rue") rest)
    | 'f' => .error (wordStop (.bool false) (Bytes.ofText "alse") rest)
    | '"' => .error (stringStop rest rest)
    | '[' => .error (.behind .array input)
    | '{' => .error (.behind .object input)
    | '-' => attemptDigits true rest
    | _ => if isDigit c then attemptDigits false input else .error (.before .noValue input)

/-! ## Whole texts -/

structure Failure where
  fault : Fault
  line : Nat
  column : Nat
deriving DecidableEq

def Failure.message (failure : Failure) : String :=
  failure.fault.message ++ " at line " ++ toString failure.line ++ " column "
    ++ toString failure.column

/-- The failure to read a text that stopped somewhere in it. A character at fault counts as read. -/
def Stop.failure (stop : Stop) (input : Bytes) : Failure :=
  let passed := input.take (input.length - stop.rest.length + if stop.ahead then 1 else 0)
  ⟨stop.fault, 1 + passed.count 10, (passed.reverse.takeWhile (· ≠ 10)).length⟩

/-- Why a whole text is no number of 64 bits, if it is none. -/
def failure? (input : Bytes) : Option Failure :=
  match attempt (skipBlanks input) with
  | .error stop => some (stop.failure input)
  | .ok (_, rest) =>
    match skipBlanks rest with
    | [] => none
    | rest => some ((Stop.before .trailing rest).failure input)

end CrossSafety.Json
