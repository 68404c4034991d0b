import LlvmLibc.Support.BuiltinWrappers
import LlvmLibc.Support.CountZeros
import LlvmLibc.Support.IntegerToString
import LlvmLibc.Stdio.Fgets
import LlvmLibc.FPUtil.Rounding
import LlvmLibc.FPUtil.FPBits
import LlvmLibc.FPUtil.Arith
import LlvmLibc.FPUtil.CorrectRounding
import LlvmLibc.Math.Common
import LlvmLibc.Math.Expf
import LlvmLibc.Math.Exp2f
import LlvmLibc.Math.Expm1f
import LlvmLibc.Math.Errno
import LlvmLibc.Math.RangeReduction
import LlvmLibc.Math.TableInputs
import LlvmLibc.Math.Sincosf
import LlvmLibc.Math.FloatGrid
import LlvmLibc.Math.TinyInputs
import LlvmLibc.FPUtil.ErrorBound
import LlvmLibc.Math.Exp2fAccuracy
