import WordMachine.Flow.Walk

/-! Straight-line blocks of the visited words, and the edges between them. -/

namespace WordMachine

/-- Neighbouring words that are only entered at the first and only left at the last. -/
structure Block where
  start : UInt32
  rest : List UInt32
  deriving DecidableEq, Repr

namespace Block

def addresses (block : Block) : List UInt32 := block.start :: block.rest

def stop (block : Block) : UInt32 := nextWord (block.rest.getLastD block.start)

def ofAddresses? : List UInt32 → Option Block
  | [] => none
  | start :: rest => some ⟨start, rest⟩

end Block

/-- Addresses at which control may arrive other than by falling through. -/
def Survey.starts (survey : Survey) (entries : List UInt32) : List UInt32 :=
  entries ++ (survey.edges.filter fun edge => edge.kind != .fallthrough).map Edge.target

/-- Cuts the visited words where they are not neighbours, before an address at which control may
arrive, and after a word that ends a block or is no instruction. -/
def Survey.blocks (survey : Survey) (entries : List UInt32) : List Block :=
  let starts := survey.starts entries
  let closing := survey.terminators ++ survey.invalid
  (survey.visited.splitBy fun before pc =>
    pc == nextWord before && !starts.contains pc && !closing.contains before).filterMap
      Block.ofAddresses?

def Edge.before (first second : Edge) : Bool :=
  if first.source ≠ second.source then first.source < second.source
  else if first.target ≠ second.target then first.target < second.target
  else first.kind.rank ≤ second.kind.rank

def Edge.fromBlock (blocks : List Block) (edge : Edge) : Edge :=
  match blocks.find? fun block => block.addresses.contains edge.source with
  | some block => { edge with source := block.start }
  | none => edge

/-- The edges that leave a block, each once and in order. A fallthrough inside a block is none. -/
def Survey.blockEdges (survey : Survey) (blocks : List Block) : List Edge :=
  let leaving := survey.edges.filter fun edge =>
    edge.kind != .fallthrough || blocks.any fun block => block.start == edge.target
  ((leaving.map (Edge.fromBlock blocks)).mergeSort Edge.before).eraseDups

end WordMachine
