import Cinder.Flow.Listing

/-!
# Graph descriptions

A function as a graph in the language of Graphviz: one box for every block, one
arrow for every link.
-/

namespace Cinder.Flow

def quoted (text : String) : String :=
  String.ofList <| text.toList.flatMap fun c =>
    if c = '\\' then ['\\', '\\'] else if c = '"' then ['\\', '"'] else [c]

namespace Function

private def box (table : SymbolTable) (color : Bool) (f : Function) (id : BlockId) : String :=
  let lines := ((f.instructionsOf id).filter (!·.isLabel)).map fun i =>
    quoted (i.display table color)
  let label := quoted (f.labelOf id) ++ ":"
  let text := String.join ((label :: lines).map (· ++ "\\l"))
  s!"    {blockName id} [label=\"{text}\"];\n"

private def arrow (source : BlockId) (kind : String) (target : BlockId) : String :=
  s!"    {blockName source} -> {blockName target} [label=\"{kind}\"];\n"

private def arrows (f : Function) (id : BlockId) : String :=
  match f.block? id with
  | none => ""
  | some block =>
    block.next.elim "" (arrow id "next") ++ block.branch.elim "" (arrow id "branch")

def graphviz (table : SymbolTable) (color : Bool) (f : Function) : Except Fault String := do
  let order ← f.order
  return s!"digraph \"{quoted f.name}\" \x7b\n"
    ++ "    node [shape=box, fontname=\"monospace\"];\n"
    ++ String.join (order.map (f.box table color)) ++ String.join (order.map f.arrows) ++ "\x7d\n"

end Function

def Module.graphviz (color : Bool) (m : Module) : Except Fault String := do
  return "\n".intercalate (← m.functions.mapM (Function.graphviz m.symbols color))

end Cinder.Flow
