import WordMachine.Image
import WordMachine.Isa.Instr

/-! Where control may go from a word, as far as the word alone can tell, and the walk along every edge from a
list of entries, breadth first. The walk yields the words in the order in which it met them; all else is
read off the image at those words. -/

namespace WordMachine

inductive EdgeKind
  | fallthrough | branch | conditional | call
  deriving DecidableEq, Repr

namespace EdgeKind

def tag : EdgeKind → String
  | .fallthrough => "ft"
  | .branch => "br"
  | .conditional => "cbr"
  | .call => "call"

/-- The place of the tag in alphabetical order. -/
def rank : EdgeKind → Nat
  | .branch => 0
  | .call => 1
  | .conditional => 2
  | .fallthrough => 3

theorem rank_lt_iff (first second : EdgeKind) : first.rank < second.rank ↔ first.tag < second.tag := by
  cases first <;> cases second <;> decide

end EdgeKind

structure Edge where
  source : UInt32
  target : UInt32
  kind : EdgeKind
  deriving DecidableEq, Repr

namespace Image

def instr? (image : Image) (address : UInt32) : Option (Instr Reg UInt32) :=
  (image.word? address).bind Word.decode?

/-- The edges of an instruction, its own target first. The target of a return is not known here;
control comes back to the word after a call, which its fallthrough stands for. A word that only
goes on has no edge past the end of the image. -/
def edgesOf (image : Image) (pc : UInt32) (i : Instr Reg UInt32) : List Edge :=
  let onward : Edge := ⟨pc, nextWord pc, .fallthrough⟩
  match i with
  | .jump .always target => [⟨pc, target, .branch⟩]
  | .jump (.when _) target => [⟨pc, target, .conditional⟩, onward]
  | .jump .call target => [⟨pc, target, .call⟩, onward]
  | .bare .ret => []
  | .bare .halt => []
  | _ => if image.Mapped (nextWord pc) then [onward] else []

def edgesAt (image : Image) (pc : UInt32) : List Edge :=
  match image.instr? pc with
  | some i => image.edgesOf pc i
  | none => []

end Image

section Counting

variable {α : Type}

theorem countP_lt_countP {few many : α → Bool} {items : List α}
    (weaker : ∀ item ∈ items, few item → many item) {extra : α} (member : extra ∈ items)
    (kept : many extra) (dropped : ¬few extra) : items.countP few < items.countP many := by
  induction items with
  | nil => simp at member
  | cons item rest ih =>
    have inner : ∀ other ∈ rest, few other → many other :=
      fun other inside => weaker other (List.mem_cons_of_mem _ inside)
    have below : rest.countP few ≤ rest.countP many := List.countP_mono_left inner
    rcases List.mem_cons.1 member with rfl | inside
    · rw [List.countP_cons_of_neg dropped, List.countP_cons_of_pos kept]
      omega
    · have smaller := ih inner inside
      by_cases counted : few item
      · rw [List.countP_cons_of_pos counted,
          List.countP_cons_of_pos (weaker item List.mem_cons_self counted)]
        omega
      · rw [List.countP_cons_of_neg counted]
        exact Nat.lt_of_lt_of_le smaller (List.countP_cons ▸ Nat.le_add_right _ _)

end Counting

namespace Image

def unseen (image : Image) (seen : List UInt32) : Nat :=
  (List.range image.bytes.size).countP fun n =>
    decide (image.Mapped (UInt32.ofNat n) ∧ UInt32.ofNat n ∉ seen)

theorem unseen_cons_lt (image : Image) {seen : List UInt32} {pc : UInt32}
    (mapped : image.Mapped pc) (fresh : pc ∉ seen) :
    image.unseen (pc :: seen) < image.unseen seen := by
  have inside : pc.toNat ∈ List.range image.bytes.size := List.mem_range.2 mapped.2
  refine countP_lt_countP ?_ inside ?_ ?_
  · intro n _ few
    simp only [List.mem_cons, not_or, decide_eq_true_eq] at few ⊢
    exact ⟨few.1, few.2.2⟩
  · simpa using ⟨mapped, fresh⟩
  · simp

/-- The walk from a queue on, with the words met so far, the last one first. Every word that is an
instruction takes one from the budget, and the walk ends when none is left. -/
def walkFrom (image : Image) (budget : Nat) (queue seen : List UInt32) : List UInt32 :=
  match queue with
  | [] => seen
  | pc :: rest =>
    if budget = 0 then seen
    else if found : image.Mapped pc ∧ pc ∉ seen then
      have := image.unseen_cons_lt found.1 found.2
      let cost := if (image.instr? pc).isSome then 1 else 0
      walkFrom image (budget - cost) (rest ++ (image.edgesAt pc).map Edge.target) (pc :: seen)
    else walkFrom image budget rest seen
termination_by (image.unseen seen, queue.length)

def walk (image : Image) (entries : List UInt32) (budget : Nat) : List UInt32 :=
  (image.walkFrom budget entries []).reverse

end Image

def ascending (addresses : List UInt32) : List UInt32 :=
  addresses.mergeSort fun first second => decide (first ≤ second)

structure Survey where
  image : Image
  met : List UInt32

def Image.survey (image : Image) (entries : List UInt32) (budget : Nat) : Survey :=
  ⟨image, image.walk entries budget⟩

namespace Survey

def visited (survey : Survey) : List UInt32 := ascending survey.met

/-- The visited words whose instruction has a property. -/
def visitedWhere (survey : Survey) (property : Op → Bool) : List UInt32 :=
  survey.visited.filter fun pc => (survey.image.instr? pc).any fun i => property i.op

def rets (survey : Survey) : List UInt32 := survey.visitedWhere (· == .bare .ret)

def halts (survey : Survey) : List UInt32 := survey.visitedWhere (· == .bare .halt)

def terminators (survey : Survey) : List UInt32 := survey.visitedWhere Op.endsBlock

def invalid (survey : Survey) : List UInt32 :=
  survey.visited.filter fun pc => (survey.image.word? pc).any fun w => w.decode?.isNone

def edges (survey : Survey) : List Edge := survey.met.flatMap survey.image.edgesAt

end Survey

end WordMachine
