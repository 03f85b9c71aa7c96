/-!
# Console Lines

What the program tells its user: complaints about a program and about its run, warnings, and the
lines around a run. Colours are switched on and off by escape sequences.
-/

namespace ScoreLang

/-- The escape character that opens a colour sequence. -/
def escapeMark : String := "\x1b["

/-- A text in the colour of the given sequence. -/
def coloured (sequence text : String) : String :=
  escapeMark ++ sequence ++ "m" ++ text ++ escapeMark ++ "0m"

/-- What is wrong with a program or its run, as it is reported to the user. -/
inductive Complaint where
  /-- Characters that form no token. -/
  | lexical (line : Int) (message : String)
  /-- Tokens that form no program; the rule at fault. -/
  | grammatical (line : Int) (place message : String)
  /-- A program that has no meaning; the rule at fault. -/
  | semantic (line : Int) (place message : String)
  /-- A failure while the program runs. -/
  | runtime (message : String)
  deriving DecidableEq, Repr

namespace Complaint

/-- What is wrong, with the rule at fault but without the line. -/
def text : Complaint → String
  | .lexical _ message => message
  | .grammatical _ place message => place ++ ": " ++ message
  | .semantic _ place message => place ++ ": " ++ message
  | .runtime message => message

/-- The line of the console that reports the complaint. -/
def report (complaint : Complaint) : String :=
  let words := match complaint with
    | .lexical line _ => "第[" ++ toString line ++ "]行包含词法错误，"
    | .grammatical line _ _ => "第[" ++ toString line ++ "]行附近包含语法错误，"
    | .semantic line _ _ => "第[" ++ toString line ++ "]行附近包含语义错误，"
    | .runtime _ => "运行时错误："
  coloured "1;31;40;" (words ++ complaint.text) ++ "\n"

end Complaint

/-- The line of the console that warns about something near a line of the program. -/
def warningReport (line : Int) (message : String) : String :=
  coloured "1;33;" ("警告：第[" ++ toString line ++ "]行附近，" ++ message) ++ "\n"

/-- What the console shows once a program has been compiled. -/
def compiledReport : String := "编译通过\n\n"

/-- What the console shows before a line of input is read. -/
def inputPrompt : String := coloured "1;34" "请输入数据：\t"

/-- The line of the console that shows an output of the program. -/
def outputReport (value : String) : String :=
  coloured "1;36" ("程序输出：\t" ++ value) ++ "\n"

/-- What the console shows when a program has come to its end. -/
def finishedReport : String := "\n程序运行结束\n"

end ScoreLang
