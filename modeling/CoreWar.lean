import CoreWar.Cell
import CoreWar.Cell.Text
import CoreWar.Core
import CoreWar.Core.Listing
import CoreWar.Core.Access
import CoreWar.OwnershipMap
import CoreWar.Census
import CoreWar.Decimal
import CoreWar.Roster
import CoreWar.Rotation
import CoreWar.Warrior
import CoreWar.Rules
import CoreWar.Fault
import CoreWar.Refusal
import CoreWar.Event
import CoreWar.Effect
import CoreWar.Random.Source
import CoreWar.Random.Xoshiro
import CoreWar.Random.Counter
import CoreWar.Random.Generator
import CoreWar.Battle
import CoreWar.Battle.Loading
import CoreWar.Battle.Turns
import CoreWar.Battle.Request
import CoreWar.CommandLine.Numeral
import CoreWar.CommandLine.Printable
import CoreWar.CommandLine.Options
import CoreWar.CommandLine.Usage
import CoreWar.CommandLine.Arguments
import CoreWar.CommandLine.Report
import CoreWar.CommandLine.Session
import CoreWar.Main
import CoreWar.Proofs.Moves
import CoreWar.Proofs.Survivors
import CoreWar.Proofs.Conclusion
import CoreWar.Proofs.ProcessNames
import CoreWar.Proofs.TurnOrder
import CoreWar.Proofs.Loadings
import CoreWar.Proofs.Instruction
import CoreWar.Proofs.Provenance
import CoreWar.Proofs.Orderly
import CoreWar.Proofs.Frame
import CoreWar.Proofs.Machine
import CoreWar.Proofs.Simulation
import CoreWar.Proofs.Safety
import CoreWar.Proofs.Residues
import CoreWar.Proofs.Circle
import CoreWar.Proofs.Territory
import CoreWar.Proofs.Draws
import CoreWar.Proofs.Refusals
import CoreWar.Proofs.Likeness
import CoreWar.Proofs.Lockstep
import CoreWar.Proofs.Relocation
import CoreWar.Proofs.Deaths
import CoreWar.Proofs.Renaming
import CoreWar.Proofs.Accounts
import CoreWar.Proofs.Reordering
import CoreWar.Proofs.Budgets
import CoreWar.Proofs.Clock
import CoreWar.Proofs.Bystanders
import CoreWar.Proofs.Imp
import CoreWar.Proofs.ProcessCap
import CoreWar.Proofs.Display
import CoreWar.Proofs.Footprint
import CoreWar.Proofs.Operands
import CoreWar.Proofs.Causes
import CoreWar.Proofs.Dwarf
import CoreWar.Proofs.Duel
import CoreWar.Proofs.Fairness
import CoreWar.Proofs.Lines
import CoreWar.Proofs.Listing
import CoreWar.Proofs.Views
import CoreWar.Proofs.Layout
import CoreWar.Proofs.Contents
