/-
Requests on a bare core.

A core may have no cells. Then nothing can be addressed, and a request that names an address is refused; size, cells and
listing are answered all the same.
-/
import CoreWar.Core
import CoreWar.Core.Listing

namespace CoreWar

namespace Core

/-- why an address could not be used -/
inductive AddressError where
  | noCells
deriving DecidableEq, Repr

def AddressError.message : AddressError → String
  | .noCells => "attempt to calculate the remainder with a divisor of zero"

inductive Access where
  | write (address : Int) (cell : Cell)
  | setFields (address : Int) (fields : Int64 × Int64)
  | read (address : Int)
  | index (address : Int)
  | isOccupied (address : Int)
  | size
  | cells
  | listing
deriving DecidableEq, Repr

/-- what a request on a core gives back -/
inductive Answer where
  | done
  | cell (c : Cell)
  | index (i : Nat)
  | occupied (flag : Bool)
  | size (n : Nat)
  | cells (cells : List Cell)
  | listing (text : String)
deriving DecidableEq, Repr

/-- the address a request names, if it names one -/
def Access.address? : Access → Option Int
  | .write address _ | .setFields address _ | .read address | .index address | .isOccupied address => some address
  | .size | .cells | .listing => none

/-- the answer to a request, and the core after it -/
def perform (core : Core) : Access → Answer × Core
  | .write address c => (.done, core.write address c)
  | .setFields address fields => (.done, core.setFields address fields)
  | .read address => (.cell (core.read address), core)
  | .index address => (.index (core.index address), core)
  | .isOccupied address => (.occupied (core.isOccupied address), core)
  | .size => (.size core.size, core)
  | .cells => (.cells core.cells.toList, core)
  | .listing => (.listing core.listing, core)

/-- as `perform`, but refuses to address a core without cells -/
def access (core : Core) (request : Access) : Except AddressError (Answer × Core) :=
  if request.address?.isSome ∧ core.size = 0 then .error .noCells else .ok (core.perform request)

end Core

end CoreWar
