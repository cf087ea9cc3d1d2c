import Mc68000.Layout.Arithmetic
import Mc68000.Layout.Control
import Mc68000.Layout.Logic
import Mc68000.Layout.Movement

namespace Mc68000

/-- The opcodes that share one rule for their fields. -/
inductive Family
  | move | moveq | movem | movep | moveFromSr | moveToCcr | moveToSr | moveUsp
  | exg | swap | lea | link | unlk
  | dyadic (op : Operation) (fromAddress : Bool)
  | toAddress (op : Operation)
  | immediate (op : Operation)
  | extended (op : Operation)
  | decimal (op : Operation)
  | alterableByte (op : Operation)
  | quick | cmpm | mulDiv | chk | ext | unary
  | eor | toCcr | toSr | bitDynamic | bitStatic | shift
  | implied | stop | trap
  | control (op : Operation)
  | branch | dbcc | scc
  deriving DecidableEq

namespace Family

/-- The rule is total: an opcode that lies outside the family is laid out all the same. -/
def layout : Family → Opcode → Except Fault Layout
  | move, w => Layout.move w
  | moveq, w => .ok (Layout.moveq w)
  | movem, w => .ok (Layout.movem w)
  | movep, w => .ok (Layout.movep w)
  | moveFromSr, w => .ok (Layout.moveFromSr w)
  | moveToCcr, w => .ok (Layout.moveToCcr w)
  | moveToSr, w => .ok (Layout.moveToSr w)
  | moveUsp, w => .ok (Layout.moveUsp w)
  | exg, w => .ok (Layout.exg w)
  | swap, w => .ok (Layout.swap w)
  | lea, w => .ok (Layout.lea w)
  | link, w => .ok (Layout.link w)
  | unlk, w => .ok (Layout.unlk w)
  | dyadic op fromAddress, w => Layout.dyadic op fromAddress w
  | toAddress op, w => .ok (Layout.toAddress op w)
  | immediate op, w => Layout.immediate op w
  | extended op, w => Layout.extended op w
  | decimal op, w => .ok (Layout.decimal op w)
  | alterableByte op, w => .ok (Layout.alterableByte op w)
  | quick, w => Layout.quick w
  | cmpm, w => Layout.cmpm w
  | mulDiv, w => .ok (Layout.mulDiv w)
  | chk, w => .ok (Layout.chk w)
  | ext, w => .ok (Layout.ext w)
  | unary, w => Layout.unary w
  | eor, w => Layout.eor w
  | toCcr, w => .ok (Layout.toCcr w)
  | toSr, w => .ok (Layout.toSr w)
  | bitDynamic, w => Layout.bitDynamic w
  | bitStatic, w => Layout.bitStatic w
  | shift, w => Layout.shift w
  | implied, w => .ok (Layout.implied w)
  | stop, _ => .ok Layout.stop
  | trap, w => .ok (Layout.trap w)
  | control op, w => .ok (Layout.control op w)
  | branch, w => .ok (Layout.branch w)
  | dbcc, w => .ok (Layout.dbcc w)
  | scc, w => .ok (Layout.scc w)

def decode (f : Family) (w : Opcode) : Decoder Fields := Layout.decodeWith (f.layout w)

end Family

end Mc68000
