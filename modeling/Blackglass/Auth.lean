import Blackglass.Schema
import Blackglass.Lib.Outcome
import Blackglass.Lib.Text
import Mathlib.Data.List.Sort

/-!
# Accounts: e-mail addresses, names and password hashes

The checks of `auth.rs` that decide what may stand in a user row.  The parser of PHC
strings is a library of the server and stays a parameter, with the one fact about it
that the row checks of the database depend on.
-/

namespace Blackglass

open Outcome Text

def maxEmailBytes : Nat := 254

def maxDisplayNameBytes : Nat := 128

structure CanonicalEmail where
  display : String
  canonical : String
deriving DecidableEq

/-- `canonicalize_email`.  A string of bytes between `!` and `~` is one of such
characters, so the position of the first `@` is the same in both. -/
def canonicalizeEmail (value : String) : Except DbError CanonicalEmail := do
  let display := trimMatches isAsciiWhiteSpace value
  rejectIf (display.utf8ByteSize = 0 ∨ maxEmailBytes < display.utf8ByteSize)
    (.bail "email must be between 1 and 254 ASCII bytes")
  rejectIf (¬display.toList.all isAsciiGraphic)
    (.bail "email must contain printable ASCII without whitespace")
  let separator ← orReject (display.toList.idxOf? '@')
    (.bail "email must contain exactly one non-edge @")
  rejectIf (separator = 0 ∨ separator + 1 = display.toList.length ∨
      '@' ∈ display.toList.drop (separator + 1))
    (.bail "email must contain exactly one non-edge @")
  return { display := display, canonical := toAsciiLowercase display }

def normalizeDisplayName (value : String) : Except DbError String := do
  let name := trimMatches isAsciiWhiteSpace value
  rejectIf (name.utf8ByteSize = 0 ∨ maxDisplayNameBytes < name.utf8ByteSize)
    (.bail "name must be between 1 and 128 bytes")
  rejectIf (name.toList.any isControl) (.bail "name must not contain control characters")
  return name

/-! ## Password hashes -/

def maxPasswordHashLength : Nat := 512

/-- What `accepted_password_hash` reads of a parsed PHC string: `params` has the
parameters in order, each with its value as a decimal if it is one, and `hash` the
length of the output. -/
structure PasswordHash where
  algorithm : String
  version : Option Nat
  params : List (String × Option Nat)
  salt : Option String
  hash : Option Nat
deriving DecidableEq

/-- `PasswordHash::new` of the `password-hash` crate.  A PHC string begins with `$`. -/
structure PhcParser where
  parse : String → Option PasswordHash
  head_of_parse : ∀ {s h}, parse s = some h → s.toList.head? = some '$'

def PasswordHash.getDecimal (h : PasswordHash) (name : String) : Option Nat :=
  (h.params.find? fun p => p.1 = name).bind (·.2)

def acceptedPasswordHash (phc : PhcParser) (encoded : String) : Option PasswordHash := do
  guard (encoded.utf8ByteSize ≤ maxPasswordHashLength)
  let hash ← phc.parse encoded
  let memory ← hash.getDecimal "m"
  let time ← hash.getDecimal "t"
  let parallelism ← hash.getDecimal "p"
  let salt ← hash.salt
  let output ← hash.hash
  let parameterNames := (hash.params.map (·.1)).insertionSort (· ≤ ·)
  guard (hash.algorithm = "argon2id" ∧ hash.version = some 19 ∧
    parameterNames = ["m", "p", "t"] ∧
    (19456 ≤ memory ∧ memory ≤ 65536) ∧ (2 ≤ time ∧ time ≤ 5) ∧
    (1 ≤ parallelism ∧ parallelism ≤ 4) ∧
    (8 ≤ salt.utf8ByteSize ∧ salt.utf8ByteSize ≤ 64) ∧ (16 ≤ output ∧ output ≤ 64))
  return hash

def passwordHashIsProductionGrade (phc : PhcParser) (encoded : String) : Bool :=
  (acceptedPasswordHash phc encoded).isSome

/-! ## The first user of a database -/

structure InitialUser where
  emailCanonical : String
  email : String
  name : String
  passwordHash : String
deriving DecidableEq

/-- `InitialUser::new`. -/
def InitialUser.new (phc : PhcParser) (email name passwordHash : String) :
    Except DbError InitialUser := do
  let email ← canonicalizeEmail email
  let name ← normalizeDisplayName name
  rejectIf (passwordHashIsProductionGrade phc passwordHash = false)
    (.bail "initial user password hash does not meet the production Argon2 policy")
  return { emailCanonical := email.canonical, email := email.display, name := name,
           passwordHash := passwordHash }

end Blackglass
