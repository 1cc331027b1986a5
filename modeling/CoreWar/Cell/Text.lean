/-
The written form of a cell: `MOV $0, $1`.

An operand is the sigil of its mode, `?` if it has none, and its field in decimal. The B operand is left out when it
carries nothing: no mode and a zero field.
-/
import CoreWar.Cell

namespace CoreWar

def Opcode.mnemonic : Opcode → String
  | .mov => "MOV"
  | .dat => "DAT"
  | .jmp => "JMP"
  | .add => "ADD"
  | .spl => "SPL"
  | .nop => "NOP"

def Mode.sigil : Mode → Char
  | .direct => '$'
  | .immediate => '#'
  | .aIndirect => '*'
  | .bIndirect => '@'

def Side.letter : Side → String
  | .a => "A"
  | .b => "B"

def Operand.sigil (o : Operand) : Char := o.mode.elim '?' Mode.sigil

def Operand.text (o : Operand) : String := o.sigil.toString ++ toString o.field.toInt

/-- whether the operand carries anything worth writing -/
def Operand.isBlank (o : Operand) : Bool := o.mode.isNone && o.field == 0

def Cell.text (c : Cell) : String :=
  c.op.mnemonic ++ " " ++ c.a.text ++ if c.b.isBlank then "" else ", " ++ c.b.text

end CoreWar
