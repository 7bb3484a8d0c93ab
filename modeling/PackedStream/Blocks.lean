namespace PackedStream

variable {α : Type}

def pieces (n : Nat) (xs : List α) : List (List α) :=
  if _h : n = 0 ∨ xs = [] then [] else xs.take n :: pieces n (xs.drop n)
termination_by xs.length
decreasing_by
  rw [not_or] at _h
  have := List.length_pos_iff.2 _h.2
  rw [List.length_drop]
  omega

def place (xs : Array α) (start : Nat) : List α → Array α
  | [] => xs
  | y :: ys => place (xs.setIfInBounds start y) (start + 1) ys

def placeAll (xs : Array α) (blocks : List (Nat × Array α)) : Array α :=
  blocks.foldl (fun xs block => place xs block.1 block.2.toList) xs

end PackedStream
