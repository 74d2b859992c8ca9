/-! Rows in storage that is kept from one function to the next. What needs rows makes as many of
them fresh as it needs; those beyond may hold anything. -/
namespace SsaCodegen
namespace Rows
variable {α : Type}

def reset (count : Nat) (fresh : α) (rows : List α) : List α :=
  (rows ++ List.replicate (count - rows.length) fresh).mapIdx fun b row =>
    if b < count then fresh else row

theorem resetEq (count : Nat) (fresh : α) (rows : List α) :
    reset count fresh rows = List.replicate count fresh ++ rows.drop count := by
  refine List.ext_getElem? fun b => ?_
  rw [reset, List.getElem?_mapIdx, List.getElem?_append, List.getElem?_append,
    List.length_replicate, List.getElem?_replicate, List.getElem?_replicate, List.getElem?_drop]
  by_cases inside : b < count
  · by_cases row : b < rows.length
    · simp [inside, row]
    · simp [inside, row, show b - rows.length < count - rows.length by omega]
  · by_cases row : b < rows.length
    · simp [inside, row, show count + (b - count) = b by omega]
    · simp [inside, row, show ¬ b - rows.length < count - rows.length by omega]
      omega

end Rows
end SsaCodegen
