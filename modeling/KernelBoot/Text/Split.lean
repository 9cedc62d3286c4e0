/-!
Cutting text, or any list, at separators.
-/
namespace KernelBoot.Text

/-- The pieces between separators, empty ones included; there is always at least one. -/
def pieces (separator : α → Bool) : List α → List (List α)
  | [] => [[]]
  | c :: rest =>
    if separator c then [] :: pieces separator rest
    else
      match pieces separator rest with
      | [] => [[c]]
      | piece :: more => (c :: piece) :: more

def components (separator : α → Bool) (text : List α) : List (List α) :=
  (pieces separator text).filter fun piece => !piece.isEmpty

end KernelBoot.Text
