import Mathlib.Init

/- libs/error.h. -/
namespace Ucore

def E_INVAL : Int := 3
def E_NO_MEM : Int := 4
def E_NO_DEV : Int := 13
def E_NA_DEV : Int := 14
def E_BUSY : Int := 15
def E_NOENT : Int := 16
def E_ISDIR : Int := 17
def E_NOTDIR : Int := 18
def E_MAX_OPEN : Int := 22
def E_EXISTS : Int := 23

end Ucore
