import GuardElision.Graph.Basic

namespace GuardElision

namespace Node

/-- A node without its id: kind, inputs, anchor, guard, memory, successors and stamp, each only if
there is something to say. -/
def text (n : Node) : String :=
  n.kind.text ++
    (if n.inputs.isEmpty then "" else " (" ++ NodeId.textList n.inputs ++ ")") ++
    part " @" n.anchor ++ part " guard=" n.guard ++ part " mem=" n.memory ++
    (if n.successors.isEmpty then "" else " -> [" ++ NodeId.textList n.successors ++ "]") ++
    (if n.stamp = .void then "" else " : " ++ n.stamp.text)
where
  part (label : String) : Option NodeId → String
    | some id => label ++ NodeId.text id
    | none => ""

end Node

namespace Graph

def text (g : Graph) : String :=
  String.join (g.liveIds.map fun id =>
    match g.get? id with
    | some n => NodeId.text id ++ " = " ++ n.text ++ "\n"
    | none => "")

end Graph

end GuardElision
