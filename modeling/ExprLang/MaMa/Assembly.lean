/-
  Assembly text of MaMa code.

  `rbx` holds the vector of captured variables and `rbp` the frame; objects come from the
  allocator, four words for a function, two for a basic value.
-/
import ExprLang.MaMa.Instr
import ExprLang.Code.Assembly

namespace ExprLang.MaMa

/-- Lines that get `words` words from the allocator, with a reference to them in `rdx`. -/
def allocation (words : String) : String :=
  s!"\n        mov   rdi, 8*{words}\n        call  malloc\n        mov   rdx, rax\n    "

/-- The template of an instruction that starts with an allocation. -/
def allocating (words : String) (lines : List String) : String :=
  templateLines (allocation words :: lines)

/-- The text of `mkvec n`: the references are popped from the last to the first. -/
def vectorBody (n : Int) (shown : String) : String :=
  let pops := (List.range n.toNat).map fun (i : Nat) =>
    s!"pop   qword [rdx + 8*(2 + {n - 1 - i})]"
  allocation (toString (n + 2)) ++ "\n".intercalate pops ++
    templateLines ["", s!"mov   qword [rdx + 8*1], {shown}", "mov   qword [rdx], 'V'", "push  rdx"]

/-- The text that pushes one fresh object. -/
def freshBody : String :=
  allocation "4" ++ templateLines ["", "mov   qword [rdx], 'F'", "mov   qword [rdx + 8*1], 0",
    "mov   qword [rdx + 8*2], 0", "mov   qword [rdx + 8*3], 0", "push  rdx"]

/-- The body of an instruction's text.  The counts of `mkvec` and `alloc` must be numbers. -/
def Instr.body : Instr → Except AsmFault String
  | loadc v => return templateLines [s!"mov   rax, qword {v.alone}", "push  rax"]
  | pop => return "pop   rax"
  | dup => return templateLines ["pop   rax", "push  rax", "push  rax"]
  | swap => return templateLines ["pop   rcx", "pop   rax", "push  rcx", "push  rax"]
  | unary op => return unaryText op.mnemonic
  | binary .add => return sumText "add"
  | binary .sub => return sumText "sub"
  | binary .mul => return productText "imul"
  | binary .div => return productText "idiv"
  | binary op => return comparisonText op.mnemonic
  | label name => return name.alone ++ ":"
  | jump l => return s!"jmp   {l.alone}"
  | jumpz l => return templateLines ["pop   rax", "test  rax, rax", s!"je    {l.alone}"]
  | mkbasic =>
    return allocating "2" ["mov   qword [rdx], 'B'", "pop   qword [rdx + 8*1]", "push  rdx"]
  | getbasic => return templateLines ["pop   rdx", "mov   rax, [rdx + 8*1]", "push  rax"]
  | slide n => return templateLines ["pop   rax", s!"add   rsp, 8*{n.alone}", "push  rax"]
  | pushloc n => return s!"push  qword [rsp + 8*{n.alone}]"
  | pushglob n => return s!"push  qword [rbx + 8*(2 + {n.alone})]"
  | mkvec n =>
    match n.int? with
    | some k => return vectorBody k n.alone
    | none => throw .noNumber
  | mkfunval l =>
    return allocating "4" ["mov   qword [rdx], 'F'", s!"mov   qword [rdx + 8*1], {l.alone}",
      "mov   qword [rdx + 8*2], 0", "pop   qword [rdx + 8*3]", "push  rdx"]
  | popenv =>
    return templateLines ["mov   rbx, [rbp + 8*2]", "pop   qword [rbp + 8*2]",
      "lea   rsp, [rbp + 8*2]", "mov   rax, [rbp]", "mov   rbp, [rbp + 8*1]", "jmp   rax"]
  | mark l =>
    return templateLines ["push  rbx", "push  rbp", s!"lea   rax, [rel {l.alone}]", "push  rax",
      "mov   rbp, rsp"]
  | apply =>
    return templateLines ["pop   rdx", "mov   rbx, [rdx + 8*3]", "mov   rax, [rdx + 8*1]",
      "jmp   rax"]
  | alloc n =>
    match n.int? with
    | some k => return String.join (List.replicate k.toNat freshBody)
    | none => throw .noNumber
  | patch n =>
    return templateLines [s!"mov   rcx, [rsp + 8*{n.alone}]", "pop   rdx",
      "mov   qword rax, [rdx + 8*1]", "mov   qword [rcx + 8*1], rax",
      "mov   qword rax, [rdx + 8*2]", "mov   qword [rcx + 8*2], rax",
      "mov   qword rax, [rdx + 8*3]", "mov   qword [rcx + 8*3], rax"]

def Instr.text : Instr → Except AsmFault String
  | label name => return labelText name
  | i => return commented i.cell (← i.body)

def cellText (c : Cell) : Except AsmFault String :=
  match Instr.ofCell? c with
  | some i => i.text
  | none => throw (.unknown c)

def assemble (c : Cell) : Except AsmFault String := assembly cellText c

/-- What stands before the code. -/
def opening : String :=
  "\n        extern  printf, malloc\n" ++
  "        SECTION .data               ; Data section, initialized variables\n" ++
  "        i64_fmt:  db  \"%lld\", 10, 0 ; printf format for printing an int64 \n    " ++
  layout ("\n        SECTION  .text\n        global main\n        main:\n" ++
    "          enter 0, 0\n    ")

/-- What stands after the code: the result is printed. -/
def closing : String :=
  layout ("\n          pop   rax\n          mov   rsi, rax\n" ++
    "          mov   rdi,i64_fmt         ; arguments in rdi, rsi\n" ++
    "          mov   rax,0               ; no xmm registers used\n" ++
    "          push  rbp                 ; set up stack frame, must be alligned\n" ++
    "          call  printf              ; Call C function\n" ++
    "          pop   rbp                 ; restore stack\n" ++
    "          ;;; Rueckkehr zum aufrufenden Kontext\n" ++
    "          pop   rbp                 ; original rbp ist last thing on the stack\n" ++
    "          mov   rax,0               ; return 0\n          ret\n    ")

def program (code : String) : String :=
  opening ++ "\n;;; Start des eigentlichen Programms\n" ++ layout code ++
    ";;; Ende des eigentlichen Programms\n\n" ++ closing

end ExprLang.MaMa
