import StylePrune.Text.Basic

/-!
The address of a development server: its number is the wanted one, or the next that is free.
-/

set_option autoImplicit false

namespace StylePrune.Server

/-- How many numbers are tried. -/
def maxAttempts : Nat := 100

/-- The first free number among `attempts` from `preferred` on. -/
def firstFree (isFree : Int → Bool) (preferred : Int) : (attempts : Nat) → Option Int
  | 0 => none
  | n + 1 => if isFree preferred then some preferred else firstFree isFree (preferred + 1) n

def noneFree (preferred : Int) : Text := "No available ports found near " ++ Text.ofInt preferred

/-- How the development server listens. -/
structure Listener where
  host : Text
  number : Int
  debug : Bool
  threaded : Bool
  deriving DecidableEq, Repr

/-- The server for one developer: threaded, on the wanted number or the next free one. -/
def developmentListener (isFree : Int → Bool) (host : Text) (wanted : Int) (debug : Bool) : Option Listener :=
  (firstFree isFree wanted maxAttempts).map fun number => ⟨host, number, debug, true⟩

end StylePrune.Server
