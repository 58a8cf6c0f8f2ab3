import GnuPoc.E32.Image
import GnuPoc.Lib.Stdio

/-!
# GnuPoc.E32.Capability — capability lists on the command line (`e32image.cpp`)

A list names capabilities with `+`, a space or `-` in front; `-` takes one away.  The set is the array
`caps` of two words; `getCapabilities` clears two bytes of it, not two words.
-/

namespace GnuPoc.E32

open GnuPoc.Lib

/-- `caps[0]` and `caps[1]`. -/
structure Caps where
  caps0 : UInt32
  caps1 : UInt32
  deriving DecidableEq

structure Capability where
  name : Bytes
  bit : ℕ

def capabilityNames : List Capability := [
  ⟨chars "TCB", 0⟩, ⟨chars "CommDD", 1⟩, ⟨chars "PowerMgmt", 2⟩, ⟨chars "MultimediaDD", 3⟩,
  ⟨chars "ReadDeviceData", 4⟩, ⟨chars "WriteDeviceData", 5⟩, ⟨chars "DRM", 6⟩, ⟨chars "TrustedUI", 7⟩,
  ⟨chars "ProtServ", 8⟩, ⟨chars "DiskAdmin", 9⟩, ⟨chars "NetworkControl", 10⟩, ⟨chars "AllFiles", 11⟩,
  ⟨chars "SwEvent", 12⟩, ⟨chars "NetworkServices", 13⟩, ⟨chars "LocalServices", 14⟩,
  ⟨chars "ReadUserData", 15⟩, ⟨chars "WriteUserData", 16⟩, ⟨chars "Location", 17⟩,
  ⟨chars "SurroundingsDD", 18⟩, ⟨chars "UserEnvironment", 19⟩]

/-- `findCapabilityBit`; `none` is `-1`. -/
def findCapabilityBit (name : Bytes) : Option ℕ :=
  (capabilityNames.find? fun cap => stricmp name cap.name = 0).map Capability.bit

def setBit (bit : ℕ) (caps : Caps) : Caps :=
  if bit < 32 then { caps with caps0 := caps.caps0 ||| 1 <<< UInt32.ofNat bit }
  else if bit < 64 then { caps with caps1 := caps.caps1 ||| 1 <<< UInt32.ofNat (bit - 32) }
  else caps

def clearBit (bit : ℕ) (caps : Caps) : Caps :=
  if bit < 32 then { caps with caps0 := caps.caps0 &&& ~~~(1 <<< UInt32.ofNat bit) }
  else if bit < 64 then { caps with caps1 := caps.caps1 &&& ~~~(1 <<< UInt32.ofNat (bit - 32)) }
  else caps

def setCapability (name : Bytes) (caps : Caps) : Caps :=
  if stricmp name (chars "all") = 0 then capabilityNames.foldl (fun caps cap => setBit cap.bit caps) caps
  else if stricmp name (chars "none") = 0 then caps
  else
    match findCapabilityBit name with
    | some bit => setBit bit caps
    | none => caps

def clearCapability (name : Bytes) (caps : Caps) : Caps :=
  match findCapabilityBit name with
  | some bit => clearBit bit caps
  | none => caps

/-- What happens to the name between `start` and a separator. -/
def applyCapability (set : Bool) (name : Bytes) (caps : Caps) : Caps :=
  if set then setCapability name caps else clearCapability name caps

/-- The loop of `getCapabilities`: the rest of the string, the name since `start`, and `set`. -/
def capabilityLoop : Bytes → Bytes → Bool → Caps → Caps
  | [], start, set, caps => applyCapability set start caps
  | c :: ptr, start, set, caps =>
    if c = 43 ∨ c = 32 then capabilityLoop ptr [] true (applyCapability set start caps)
    else if c = 45 then capabilityLoop ptr [] false (applyCapability set start caps)
    else capabilityLoop ptr (start ++ [c]) set caps

/-- `getCapabilities`, on a little-endian host: `memset(caps, 0, 2)`. -/
def getCapabilities (origStr : CString) (caps : Caps) : Caps :=
  capabilityLoop origStr.chars [] true { caps with caps0 := caps.caps0 &&& 0xffff0000 }

end GnuPoc.E32
