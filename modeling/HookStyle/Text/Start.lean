/-!
# The start of a text

`stripStart? start text` is what follows `start` in `text`, when `text` begins with it.

* `stripStart?_eq_some_iff`: the text is the start followed by the answer.
-/

namespace HookStyle.Text

/-- What follows `start`, or `none` when the text begins otherwise. -/
def stripStart? : List Char → List Char → Option (List Char)
  | [], text => some text
  | _ :: _, [] => none
  | c :: start, d :: text => if c = d then stripStart? start text else none

theorem stripStart?_append (start rest : List Char) :
    stripStart? start (start ++ rest) = some rest := by
  induction start with
  | nil => rfl
  | cons c start ih => simp [stripStart?, ih]

theorem stripStart?_eq_some_iff {start text rest : List Char} :
    stripStart? start text = some rest ↔ text = start ++ rest := by
  constructor
  · intro h
    fun_induction stripStart? start text with
    | case1 text => simpa using h
    | case2 => simp at h
    | case3 c start text ih => simp [ih h]
    | case4 => simp at h
  · rintro rfl
    exact stripStart?_append start rest

end HookStyle.Text
