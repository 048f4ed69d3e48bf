/-
  Programs of a chosen size.

  * `tour` passes through every construct of the language, and then keeps a running total;
  * `imperative` is a program for the stack machine: assignments, branches, loops and procedures;
  * `functional` is a program for the functional machine: a sum of captured variables.

  Each of them has at least its fixed part; a larger size fills it up from a cycle of statements.
-/

namespace ExprLang.Workload

def braced (s : String) : String := "\x7b " ++ s ++ " \x7d"

def cycle (items : List String) (n : Nat) : List String :=
  (List.range n).map fun i => items[i % items.length]?.getD ""

def fill (statements filler : List String) (size : Int) : List String :=
  statements ++ cycle filler (size - statements.length).toNat

def sequence (statements : List String) (last : String) : String :=
  "\n".intercalate ("\x7b" :: statements ++ [last, "\x7d"])

/-- The statements that pass through every construct. -/
def tourStatements : List String := [
  "acc = 0;",
  "arr = [1, 2, 3, 4];",
  "tbl = \x7b\"a\": 1, \"b\": 2\x7d;",
  "acc = acc + arr[0] + tbl[\"a\"];",
  "acc = if true and not false then acc + 1 else acc - 1;",
  "acc = if false then acc else acc;",
  "if false then 0;",
  "acc = acc + (+1) + (-1);",
  "ch = 'q';",
  "lock acc in acc;",
  "local tmp = 3, tmq = 4 in acc = acc + tmp + tmq;",
  "loop 2 do acc = acc + 1;",
  "i = 0;",
  "while i < 2 do " ++ braced "i = i + 1; acc = acc + 1" ++ ";",
  "j = 0;",
  "do " ++ braced "j = j + 1; acc = acc + 1" ++ " while j < 2;",
  "inc = \\x -> x + 1;",
  "acc = inc(acc);",
  "va = \\a, xs... -> xs;",
  "va(1, 2, 3);",
  "pr = proc (a) b -> " ++ braced "b = a * 2; b" ++ ";",
  "acc = acc + pr(3);",
  "base = struct " ++ braced ".x = 1; .y = 2" ++ ";",
  "child = extend base " ++ braced ".z = 3; .bump = \\ -> .z = .z + ..x" ++ ";",
  "child.bump();",
  "acc = acc + child.z + child..x + base.y;",
  "self = struct " ++ braced ".me = this" ++ ";",
  "acc = acc + (1 < 2) + (2 > 1) + (1 <= 1) + (2 >= 2);",
  "acc = acc + (1 == 1) + (1 != 2);",
  "flag = (true or false) and (true nand false);",
  "flag = (true nor false) xor (true imp false);",
  "flag = true eq true;",
  "flag = true neq false;",
  "acc = acc * 2 / 2;",
  "lst = list(1, 2, 3);",
  "lst = concat(lst, list(4));",
  "lst = reverse(lst);",
  "lst = map(inc, lst);",
  "acc = acc + head(lst) + head(tail(lst));",
  "trap;"]

/-- The statements that keep the running total. -/
def tourFiller : List String := [
  "acc = acc + (if acc >= 0 then 1 else -1);",
  "acc = acc + arr[1];",
  "local k = 2 in acc = acc + k;",
  "loop 1 do acc = acc + 0;",
  "acc = inc(acc) - 1;"]

/-- A program that passes through every construct. -/
def tour (size : Int) : String := sequence (fill tourStatements tourFiller size) "acc"

/-- The statements of the imperative program.  The loop that is nested as a block in the
    intermediate code is left out unless `nested` is set. -/
def imperativeStatements (nested : Bool) : List String :=
  ["a = 1;",
   "b = 2;",
   "c = -a + b * 3 - 4 / 2;",
   "c = if a < b then c + 1 else c - 1;",
   "c = if a > b then 1 else if a <= b then 2 else 3;",
   "c = (a >= 0) + (a == 1) + (a != 0);"] ++
  (if nested then ["i = 0;", "while i < 3 do i = i + 1;"] else []) ++
  ["loop 3 do c = c + 1;",
   "do c = c + 1 while c < 10;",
   "p = proc (x, y) t -> " ++ braced "t = x + y; t * 2" ++ ";",
   "q = proc () u -> u = 7;",
   "c = c + p(a, b) + q();"]

def imperativeFiller : List String := [
  "c = c + a * b - 1;",
  "c = if c < 100 then c + 1 else c;",
  "loop 2 do c = c + 0;"]

/-- A program for the stack machine. -/
def imperative (size : Int) (nested : Bool) : String :=
  sequence (fill (imperativeStatements nested) imperativeFiller size) "c"

/-- A sum that starts at one and goes on with the variables `x0` to `x3` in turn. -/
def sumOfVariables : Nat → String
  | 0 => "1"
  | n + 1 => "(" ++ sumOfVariables n ++ ") + x" ++ toString (n % 4)

/-- A program for the functional machine, with at least one captured variable. -/
def functional (terms : Int) : String :=
  "local x0 = -1 + 2, x1 = if 1 < 2 then 3 else 4, x2 = (\\a -> a * 2)(5), " ++
    "x3 = if 1 <= 1 then (if 2 >= 2 then 7 else 0) else 0 in (\\f -> f(" ++
    sumOfVariables (max 1 terms).toNat ++ "))(\\v -> if v == 0 then 0 - 1 else v / 1)"

end ExprLang.Workload
