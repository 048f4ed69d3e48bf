/-
  Assembly text of CMa code.

  The machine stack grows down from the address in `rbx`; `rbp` holds the frame pointer as an
  offset from it.
-/
import ExprLang.CMa.Instr
import ExprLang.Code.Assembly
import ExprLang.Code.Listing

namespace ExprLang.CMa

def Instr.body : Instr → String
  | loadc v => templateLines [s!"mov   rax, qword {v.alone}", "push  rax"]
  | pop => "pop   rax"
  | dup => templateLines ["pop   rax", "push  rax", "push  rax"]
  | swap => templateLines ["pop   rcx", "pop   rax", "push  rcx", "push  rax"]
  | unary op => unaryText op.mnemonic
  | binary .add => sumText "add"
  | binary .sub => sumText "sub"
  | binary .mul => productText "mul"
  | binary .div => productText "div"
  | binary op => comparisonText op.mnemonic
  | load =>
    templateLines ["pop   rdx", "neg   rdx", "add   rdx, rbx", "mov   rax, [rdx]", "push  rax"]
  | store =>
    templateLines ["pop   rdx", "neg   rdx", "add   rdx, rbx", "mov   rax, [rsp]",
      "mov   [rdx], rax"]
  | label name => name.alone ++ ":"
  | jump l => s!"jmp   {l.alone}"
  | jumpz l => templateLines ["pop   rax", "test  rax, rax", s!"je    {l.alone}"]
  | enter => templateLines ["mov   rbp, rbx", "sub   rbp, rsp"]
  | alloc n => s!"sub   rsp, qword {n.alone}"
  | loadrc v => templateLines ["mov   rax, rbp", s!"add   rax, qword {v.alone}", "push  rax"]
  | ret =>
    templateLines ["mov   rsp, rbx             ; restore stack pointer to prev frame ",
      "sub   rsp, rbp             ; \" rsp <- rbx - rbp (= N)",
      "mov   rax, rbx             ; restore frame pointer",
      "sub   rax, rbp             ; \"",
      "mov   rbp, [rax+8]         ; \" rbp <- [rbx - rbp + 8]",
      "ret"]
  | mark => "push  rbp"
  | call => templateLines ["pop   rax", "call  rax"]
  | slide n => templateLines ["pop   rax", s!"add   rsp, qword {n.alone}", "push  rax"]

def Instr.text : Instr → String
  | label name => labelText name
  | i => commented i.cell i.body

def cellText (c : Cell) : Except AsmFault String :=
  match Instr.ofCell? c with
  | some i => return i.text
  | none => throw (.unknown c)

def assemble (c : Cell) : Except AsmFault String := assembly cellText c

/-- What stands before the code: the format of the result, room for `globals` variables, and the
    registers set up. -/
def opening (globals : Nat) : String :=
  "\n        extern  printf\n" ++
  "        SECTION .data               ; Data section, initialized variables\n" ++
  "        i64_fmt:  db  \"%lld\", 10, 0 ; printf format for printing an int64 \n    " ++
  layout ("\n        SECTION  .text\n        global main\n        main:\n" ++
    "          push  rbp                 ; unnötig, weil es den Wert 1 enthält, " ++
    "trotzem notwendig, weil sonst segfault\n" ++
    "          mov   rbx,rsp             ; store start of CMa stack in rbx\n" ++
    "          sub   rbx,8               ; \" \n" ++
    "          sub   rsp," ++ padded 16 (toString (8 * globals)) ++
    "; Platz für globale Variablen\n" ++
    "          mov   rax,rsp             ; rsp zeigt auf den geretteten rbp\n" ++
    "          sub   rax,qword 8         ; neuer rbp sollte ein wort darüber liegen\n" ++
    "          mov   rbp,rax             ; set frame pointer to current (empty) stack pointer\n    ")

/-- What stands after the code: the result is printed, and the stack given back. -/
def closing (globals : Nat) : String :=
  layout ("\n          pop   rax\n          mov   rsi, rax\n" ++
    "          mov   rdi,i64_fmt         ; arguments in rdi, rsi\n" ++
    "          mov   rax,0               ; no xmm registers used\n" ++
    "          push  rbp                 ; set up stack frame, must be alligned\n" ++
    "          call  printf              ; Call C function\n" ++
    "          pop   rbp                 ; restore stack\n" ++
    "          add   rsp," ++ toString (8 * globals) ++ "\n" ++
    "          ;;; Rueckkehr zum aufrufenden Kontext\n" ++
    "          pop   rbp                 ; original rbp ist last thing on the stack\n" ++
    "          mov   rax,0               ; return 0\n          ret\n    ")

def program (code : String) (globals : Nat) : String :=
  opening globals ++ "\n;;; Start des eigentlichen Programms\n" ++ layout code ++
    ";;; Ende des eigentlichen Programms\n\n" ++ closing globals

end ExprLang.CMa
